import PgOrca.Subquery.ValueContext

/-!
# Counting the comparisons of a quantified subquery

The numbers of kept rows and of NULL comparisons determine the value of the subquery, except that a
NULL operand has to be told apart when only the TRUE comparisons are kept.
-/

namespace PgOrca.Unnesting

open Multiset Option Row
open CDatum (toInt ofBool toBool_ofBool int)
open CSubqueryHandler (outerApply)

universe u

variable {β : Type u} [DecidableEq β]

namespace CValueExpr

@[simp] theorem eval_ident (c : ℕ) (r : Row ℕ (CDatum β)) :
    (ident c : CValueExpr β).eval r = r c := by rw [eval]

@[simp] theorem eval_const (v : Option (CDatum β)) (r : Row ℕ (CDatum β)) :
    (const v).eval r = v := by rw [eval]

@[simp] theorem eval_constBool (value : Bool) (r : Row ℕ (CDatum β)) :
    (constBool value : CValueExpr β).eval r = some (.bool value) := eval_const _ r

@[simp] theorem eval_node (op : CScalarOp β) (es : List (CValueExpr β)) (r : Row ℕ (CDatum β)) :
    (node op es).eval r = op.value (es.map fun e => e.eval r) := by
  rw [eval,evalAll_eq_map]

theorem eval_existential (negated : Bool) (inner : CRelExpr β) (r : Row ℕ (CDatum β)) :
    (existential negated inner).eval r
      = ofBool (some (decide ((inner.rows r).card = 0) = negated)) := by
  rw [eval]

theorem eval_quantifiedCmp (op : CScalarCmp β) (operand : CValueExpr β) (column : ℕ)
    (r : Row ℕ (CDatum β)) : (quantifiedCmp op operand column).eval r
      = ofBool (op.value (operand.eval r) (r column)) := by
  simp [quantifiedCmp,CScalarOp.value]

theorem eval_isNull (e : CValueExpr β) (r : Row ℕ (CDatum β)) :
    e.isNull.eval r = some (.bool (e.eval r).isNone) := by
  simp [isNull,CScalarOp.value,ofBool]

theorem eval_nullIndicator (e : CValueExpr β) (r : Row ℕ (CDatum β)) :
    e.nullIndicator.eval r = some (.int (if e.eval r = none then 1 else 0)) := by
  simp only [nullIndicator,eval_node,List.map_cons,List.map_nil,eval_isNull,constInt,
    eval_const,CScalarOp.value,CDatum.toBool_some_bool]
  rcases e.eval r with _ | v <;> rfl

end CValueExpr

namespace CSubqueryHandler

variable (value : Bool) (ts : Multiset (Option Bool))

section

variable {r : Row ℕ (CDatum β)}

/-- The value rebuilt from the number of rows kept and the number of NULL comparisons. -/
def rebuilt (n m : ℕ) : Option Bool :=
  if 0 < n then if m = n then none else some value else some !value

theorem eval_quantifiedIf {value : Bool} {count sum n m : ℕ}
    (hcnt : r count = some (.int n) ∨ n = 0 ∧ r count = none)
    (hsum : 0 < n → r sum = some (.int m)) :
    (quantifiedIf value count sum : CValueExpr β).eval r = ofBool (rebuilt value n m) := by
  have hgt : (CScalarCmp.ofInt false fun m n => n < m : CScalarCmp β).value (r count)
      (some (.int 0)) = some true ↔ 0 < n := by
    rcases hcnt with h | ⟨rfl,h⟩ <;> rw [h] <;> simp [CScalarCmp.ofInt,toInt]
  simp only [quantifiedIf,CValueExpr.eval_node,List.map_cons,List.map_nil,
    CValueExpr.eval_ident,CValueExpr.constInt,CValueExpr.eval_const,
    CValueExpr.eval_constBool,CScalarOp.value,toBool_ofBool,hgt,rebuilt]
  by_cases hn : 0 < n
  · have hcnt : r count = some (.int n) := hcnt.resolve_right fun h => hn.ne' h.1
    have heq : (CScalarCmp.ofInt true fun m n => m = n : CScalarCmp β).value (r sum) (r count)
        = some true ↔ m = n := by
      rw [hcnt,hsum hn]
      simp [CScalarCmp.ofInt,toInt]
    simp only [if_pos hn,heq]
    by_cases hm : m = n
    · rw [if_pos hm,if_pos hm]
      rfl
    · rw [if_neg hm,if_neg hm]
      rfl
  · rw [if_neg hn,if_neg hn]
    rfl

/-- The quantified value in terms of the comparison that is counted: for ALL it is the inverse. -/
def quantifiedValue : Option Bool :=
  if value then Kleene.anyOf ts else Kleene.not (Kleene.anyOf ts)

theorem countP_notFalse :
    (ts.countP fun t => t ≠ some false) = ts.count (some true) + ts.count none := by
  induction ts using Multiset.induction_on with
  | empty => rfl
  | cons t ts ih => rcases t with _ | _ | _ <;> simp [ih] <;> omega

theorem rebuilt_of_notFalse :
    rebuilt value (ts.countP fun t => t ≠ some false) (ts.count none)
      = quantifiedValue value ts := by
  rw [countP_notFalse,rebuilt,quantifiedValue,Kleene.anyOf]
  simp only [← count_pos]
  by_cases htrue : 0 < ts.count (some true)
  · have hpos : 0 < ts.count (some true) + ts.count none := by omega
    have hne : ts.count none ≠ ts.count (some true) + ts.count none := by omega
    rw [if_pos hpos,if_neg hne,if_pos htrue]
    cases value <;> rfl
  · have hzero : ts.count (some true) = 0 := by omega
    rw [if_neg htrue,hzero,zero_add,if_pos rfl]
    by_cases hnull : 0 < ts.count none
    · rw [if_pos hnull,if_pos hnull]
      cases value <;> rfl
    · rw [if_neg hnull,if_neg hnull]
      cases value <;> rfl

theorem rebuilt_of_isTrue {ts : Multiset (Option Bool)} (h : none ∉ ts) :
    rebuilt value (ts.count (some true)) 0 = quantifiedValue value ts := by
  have hcnt : ts.count none = 0 := count_eq_zero_of_notMem h
  have hv := rebuilt_of_notFalse value ts
  rwa [countP_notFalse,hcnt,add_zero] at hv

end

section

variable {α : Type*} {S : Multiset α} {g : α → Row ℕ (CDatum β)} {c : ℕ}

omit [DecidableEq β] in
theorem count_value (h : ∀ y ∈ S, (g y c).isSome = true) :
    (CScalarAggFunc.count c).value (S.map g) = some (.int S.card) := by
  rw [CScalarAggFunc.value,countP_map,Multiset.filter_eq_self.mpr h]

omit [DecidableEq β] in
theorem sum_value {p : α → Prop} [DecidablePred p] (hS : S ≠ 0)
    (h : ∀ y ∈ S, g y c = some (.int (if p y then 1 else 0))) :
    (CScalarAggFunc.sum c).value (S.map g) = some (.int (S.countP p)) := by
  have hvs : (S.map g).map (fun r => toInt (r c))
      = S.map fun y => some (if p y then (1 : ℤ) else 0) := by
    rw [Multiset.map_map]
    exact Multiset.map_congr rfl fun y hy => by simp only [Function.comp_apply,h y hy,toInt]
  have hsome : ¬ ∀ v ∈ S.map (fun y => some (if p y then (1 : ℤ) else 0)), v = none := by
    obtain ⟨y,hy⟩ := exists_mem_of_ne_zero hS
    exact fun hnull => nomatch hnull _ (Multiset.mem_map_of_mem _ hy)
  have hsum (T : Multiset α) :
      (T.map fun y => if p y then (1 : ℤ) else 0).sum = (T.countP p : ℤ) := by
    induction T using Multiset.induction_on with
    | empty => rfl
    | cons y T ih =>
      rw [Multiset.map_cons,Multiset.sum_cons,ih,countP_cons]
      split_ifs <;> push_cast <;> ring
  rw [CScalarAggFunc.value,hvs,CScalarAggFunc.sumOf,if_neg hsome,Multiset.map_map,map_some]
  exact congrArg (fun n => some (int n)) (hsum S)

end

end CSubqueryHandler

namespace CRelExpr

variable (outer inner child : CRelExpr β) (env : Row ℕ (CDatum β))

theorem rows_addProjection (c : ℕ) (e : CValueExpr β) :
    (child.addProjection c e).rows env = (child.rows env).map fun r =>
      r.assign [c] [e.eval (r.scope child.outputColumns env)] := by
  rw [addProjection,rows]
  simp only [evalAll]

omit [DecidableEq β] in
theorem columns_addProjection (c : ℕ) (e : CValueExpr β) :
    (child.addProjection c e).outputColumns = child.outputColumns ∪ {c} := by
  rw [addProjection,outputColumns,List.toFinset_cons,List.toFinset_nil,insert_empty_eq]

omit [DecidableEq β] in
theorem outputColumns_outerApply : (outerApply outer inner).outputColumns
    = outer.outputColumns ∪ inner.outputColumns := by
  rw [outerApply,outputColumns,ELogicalApply.outputColumns]

theorem rows_outerApply : (outerApply outer inner).rows env
    = (outer.rows env).bind fun x => (LeftKind.outer.extensions
        (inner.rows (x.scope outer.outputColumns env))).map x.merge := by
  rw [outerApply,rows]
  have hall (x : Row ℕ (CDatum β)) (Y : Multiset (Row ℕ (CDatum β))) : partners (fun r =>
      ELogicalApply.leftOuter.isMatch (CDatum.toBool ((CValueExpr.constBool true).eval
        (r.scope (outer.outputColumns ∪ inner.outputColumns) env)))) x Y = Y := by
    refine Multiset.filter_eq_self.mpr fun y _ => ?_
    simp only [CValueExpr.eval_constBool]
    rfl
  simp only [hall,ELogicalApply.kind]

/-- A grouping of rows that come in non-empty batches with a key of their own: every batch is one
group. -/
theorem rows_gbAgg_bind {α : Type*} {child : CRelExpr β} {env : Row ℕ (CDatum β)} {columns : List ℕ}
    {Z : Multiset α} {E : α → Multiset (Row ℕ (CDatum β))} {key : α → List (Option (CDatum β))}
    (hrows : child.rows env = Z.bind E) (hcols : columns ≠ []) (hE : ∀ z ∈ Z, E z ≠ 0)
    (hkey : ∀ z ∈ Z, ∀ e ∈ E z, (e.scope child.outputColumns env).tuple columns = key z)
    (hn : (Z.map key).Nodup) (aggregates : List (ℕ × CScalarAggFunc β)) :
    (gbAgg child columns aggregates).rows env = Z.map fun z =>
      ((ofTuple columns (key z)).assign (aggregates.map Prod.fst) (aggregates.map fun a =>
        a.2.value ((E z).map fun r => r.scope child.outputColumns env))).restrict
          (gbAgg child columns aggregates).outputColumns := by
  have hX : (child.rows env).map (fun r => r.scope child.outputColumns env)
      = Z.bind fun z => (E z).map fun r => r.scope child.outputColumns env := by
    rw [hrows,Multiset.map_bind]
  have hE' : ∀ z ∈ Z, ((E z).map fun r => r.scope child.outputColumns env) ≠ 0 :=
    fun z hz h => hE z hz (Multiset.map_eq_zero.mp h)
  have hkey' : ∀ z ∈ Z, ∀ e ∈ (E z).map (fun r => r.scope child.outputColumns env),
      tuple columns e = key z := by
    intro z hz e he
    obtain ⟨r,hr,rfl⟩ := Multiset.mem_map.mp he
    exact hkey z hz r hr
  rw [rows,hX,groupKeys,if_neg (by simpa using hcols),keysOf_bind hE' hkey' hn,Multiset.map_map]
  refine Multiset.map_congr rfl fun z hz => ?_
  rw [Function.comp_apply,aggregateRow,withKey_bind hkey' hn hz,outputColumns]

end CRelExpr

namespace CSubqueryHandler

section

/-- The comparison of a quantified subquery for an inner row. -/
def cmpValue (op : CScalarCmp β) (operand : CValueExpr β) (column : ℕ) (inner : CRelExpr β)
    (E y : Row ℕ (CDatum β)) : Option Bool :=
  op.value (operand.eval (y.scope inner.outputColumns E)) (y.scope inner.outputColumns E column)

variable (ctx : CSubqueryContext β) (op : CScalarCmp β) (operand : CValueExpr β) (column : ℕ)
  (outer inner : CRelExpr β)

def keptRows (E : Row ℕ (CDatum β)) : Multiset (Row ℕ (CDatum β)) :=
  (inner.rows E).filter fun y =>
    if useNotNullableInnerOpt ctx op column inner then
      cmpValue op operand column inner E y = some true
    else cmpValue op operand column inner E y ≠ some false

def nullRows (E : Row ℕ (CDatum β)) : ℕ :=
  (keptRows ctx op operand column inner E).countP fun y =>
    cmpValue op operand column inner E y = none

theorem rows_pexprInnerSelect (E : Row ℕ (CDatum β)) :
    (pexprInnerSelect ctx op operand column inner).rows E
      = keptRows ctx op operand column inner E := by
  rw [pexprInnerSelect,CRelExpr.rows,keptRows]
  refine Multiset.filter_congr fun y _ => ?_
  rw [innerPredicate]
  by_cases h : useNotNullableInnerOpt ctx op column inner = true
  · rw [if_pos h,if_pos h,CValueExpr.eval_quantifiedCmp,toBool_ofBool,cmpValue]
  · rw [if_neg h,if_neg h,CValueExpr.isNotFalse,CValueExpr.eval_node,List.map_cons,
      List.map_nil,CValueExpr.eval_quantifiedCmp]
    simp only [CScalarOp.value,toBool_ofBool,EBoolTest.value,cmpValue,ne_eq,
      Option.some.injEq,decide_not,Bool.not_eq_true',decide_eq_false_iff_not]

/-- The columns of the two sides are different and older than the columns that are created. -/
structure Placed (outer inner : CRelExpr β) (used : Finset ℕ) (next : ℕ) : Prop where
  outer_lt : ∀ c ∈ outer.outputColumns, c < next
  inner_lt : ∀ c ∈ inner.outputColumns, c < next
  used_lt : ∀ c ∈ used, c < next
  disjoint : Disjoint outer.outputColumns inner.outputColumns

variable {ctx op operand column outer inner} {used : Finset ℕ} {next : ℕ}

omit [DecidableEq β] in
theorem Placed.agreeOn_merge (h : Placed outer inner used next) {x y : Row ℕ (CDatum β)}
    (env : Row ℕ (CDatum β)) (hx : x.SupportedOn outer.outputColumns)
    (hy : y.SupportedOn inner.outputColumns) (v : Option (CDatum β)) :
    Row.AgreeOn used
      ((x.merge (y.assign [next] [v])).scope
        (outer.outputColumns ∪ (inner.outputColumns ∪ {next})) env)
      (y.scope inner.outputColumns (x.scope outer.outputColumns env)) := by
  intro c hc
  have hnext : c ≠ next := (h.used_lt c hc).ne
  have hv : (x.merge (y.assign [next] [v])) c = (x c).or (y c) := by
    rw [Row.merge,assign_singleton,if_neg hnext]
  by_cases hi : c ∈ inner.outputColumns
  · have ho : x c = none := hx c (Finset.disjoint_right.mp h.disjoint hi)
    have hmem : c ∈ outer.outputColumns ∪ (inner.outputColumns ∪ {next}) :=
      Finset.mem_union_right _ (Finset.mem_union_left _ hi)
    rw [scope,if_pos hmem,hv,ho,none_or,scope,if_pos hi]
  · have hyc : y c = none := hy c hi
    rw [scope,scope,if_neg hi,scope,hv,hyc,or_none]
    simp only [Finset.mem_union,Finset.mem_singleton,hi,hnext,or_false]

theorem eval_quantifiedCmp_eq_none_iff {E y : Row ℕ (CDatum β)} :
    (CValueExpr.quantifiedCmp op operand column).eval (y.scope inner.outputColumns E) = none
      ↔ cmpValue op operand column inner E y = none := by
  rw [CValueExpr.eval_quantifiedCmp,cmpValue]
  exact map_eq_none_iff

section

variable {sel T : CRelExpr β} {e : CValueExpr β} {env E : Row ℕ (CDatum β)} {columns : List ℕ}

def nullsAmong (e : CValueExpr β) (sel : CRelExpr β) (E : Row ℕ (CDatum β)) : ℕ :=
  (sel.rows E).countP fun y => e.eval (y.scope sel.outputColumns E) = none

/-- The row carries the number of rows and, if there are any, the number of NULLs among them. -/
structure Counts (sel : CRelExpr β) (e : CValueExpr β) (next : ℕ) (E r : Row ℕ (CDatum β)) :
    Prop where
  count : r (next + 1) = some (.int (sel.rows E).card) ∨
    (sel.rows E).card = 0 ∧ r (next + 1) = none
  sum : sel.rows E ≠ 0 → r (next + 3) = some (.int (nullsAmong e sel E))

theorem Counts.congr {r s : Row ℕ (CDatum β)} (h : Counts sel e next E r)
    (hcnt : s (next + 1) = r (next + 1)) (hsum : s (next + 3) = r (next + 3)) :
    Counts sel e next E s := ⟨hcnt ▸ h.count,fun hne => hsum.trans (h.sum hne)⟩

/-- The group with the two counts over its rows, each with its NULL indicator. -/
def countedRow (e : CValueExpr β) (next : ℕ) (r : Row ℕ (CDatum β))
    (X : Multiset (Row ℕ (CDatum β))) : Row ℕ (CDatum β) :=
  let marked := X.map fun s => s.assign [next + 2] [e.nullIndicator.eval s]
  r.assign [next + 1, next + 3]
    [(CScalarAggFunc.count next).value marked, (CScalarAggFunc.sum (next + 2)).value marked]

theorem countedRow_of_lt {c : ℕ} (hc : c < next) (r : Row ℕ (CDatum β))
    (X : Multiset (Row ℕ (CDatum β))) : countedRow e next r X c = r c := by
  have hnew : c ∉ [next + 1,next + 3] := by simp; omega
  rw [countedRow,assign,if_neg hnew]

theorem counts_countedRow {g : Row ℕ (CDatum β) → Row ℕ (CDatum β)} (hne : sel.rows E ≠ 0)
    (hwit : ∀ y ∈ sel.rows E, (g y next).isSome = true)
    (hused : ∀ y ∈ sel.rows E, AgreeOn e.usedColumns (g y) (y.scope sel.outputColumns E))
    (r : Row ℕ (CDatum β)) : Counts sel e next E (countedRow e next r ((sel.rows E).map g)) := by
  have hcnt := count_value (S := sel.rows E) (c := next)
    (g := fun y => (g y).assign [next + 2] [e.nullIndicator.eval (g y)]) fun y hy => by
      simp [assign_singleton,hwit y hy]
  have hsum := sum_value (c := next + 2) (p := fun y => e.eval (y.scope sel.outputColumns E) = none)
    (g := fun y => (g y).assign [next + 2] [e.nullIndicator.eval (g y)]) hne fun y hy => by
      simp [assign_singleton,CValueExpr.eval_nullIndicator,e.eval_congr (hused y hy)]
  simp only [countedRow,Multiset.map_map,Function.comp_def,hcnt,hsum]
  exact ⟨.inl (by simp [assign,ofTuple]),fun _ => by simp [assign,ofTuple,nullsAmong]⟩

/-- A grouping of rows that come in non-empty batches with a key of their own. -/
theorem rows_quantifiedGroupBy {α : Type*} {Z : Multiset α} {B : α → Multiset (Row ℕ (CDatum β))}
    {k : α → List (Option (CDatum β))} (hrows : T.rows env = Z.bind B) (hcols : columns ≠ [])
    (hlt : ∀ c ∈ columns, c < next) (hB : ∀ z ∈ Z, B z ≠ 0)
    (hkey : ∀ z ∈ Z, ∀ r ∈ B z, (r.scope T.outputColumns env).tuple columns = k z)
    (hn : (Z.map k).Nodup) :
    (quantifiedGroupBy T columns next e (next + 1)).rows env = Z.map fun z =>
      (countedRow e next (ofTuple columns (k z))
        ((B z).map fun r => r.scope T.outputColumns env)).restrict
          (quantifiedGroupBy T columns next e (next + 1)).outputColumns := by
  have hsc (r : Row ℕ (CDatum β)) (v : Option (CDatum β)) :
      (r.assign [next + 2] [v]).scope (T.outputColumns ∪ {next + 2}) env =
        (r.scope T.outputColumns env).assign [next + 2] [v] := by
    funext c
    by_cases hc : c = next + 2 <;> simp [scope,assign_singleton,hc]
  have hmar : (T.addProjection (next + 2) e.nullIndicator).rows env = Z.bind fun z =>
      (B z).map fun r => r.assign [next + 2] [e.nullIndicator.eval (r.scope T.outputColumns env)] := by
    rw [CRelExpr.rows_addProjection,hrows,Multiset.map_bind]
  have hg := CRelExpr.rows_gbAgg_bind hmar hcols (fun z hz hzero => ?_)
    (fun z hz s hs => ?_) hn [(next + 1, .count next),(next + 3, .sum (next + 2))]
  · refine hg.trans (Multiset.map_congr rfl fun z _ => ?_)
    simp only [CRelExpr.columns_addProjection,Multiset.map_map,Function.comp_def,hsc,
      countedRow]
    rfl
  · exact hB z hz (Multiset.map_eq_zero.mp hzero)
  · obtain ⟨r,hr,rfl⟩ := Multiset.mem_map.mp hs
    rw [← hkey z hz r hr,CRelExpr.columns_addProjection,hsc]
    refine tuple_eq_iff.mpr fun c hc => ?_
    rw [assign_singleton,if_neg (by have := hlt c hc; omega)]

omit [DecidableEq β] in
theorem mem_quantifiedGroupBy (hlt : ∀ c ∈ columns, c < next) {c : ℕ} :
    c ∈ (quantifiedGroupBy T columns next e (next + 1)).outputColumns ↔
      c ∈ columns ∧ c ∈ T.outputColumns ∨ c = next + 1 ∨ c = next + 3 := by
  have hnew : c ∈ columns → c ≠ next + 2 := fun hc => by have := hlt c hc; omega
  rw [quantifiedGroupBy,CRelExpr.outputColumns,CRelExpr.columns_addProjection]
  simp
  tauto

variable (h : Placed outer sel e.usedColumns next)

include h

variable (env) in
/-- The grouping above the apply: every outer row comes out once, with the counts of the inner rows
for it. -/
theorem exists_rows_above (hcols : columns ≠ []) (hsub : columns.toFinset ⊆ outer.outputColumns)
    (hkey : ((outer.rows env).map (tuple columns)).Nodup) {t : CRelExpr β}
    (ht : t = quantifiedGroupBy (outerApply outer (sel.addProjection next (.constBool true))) columns
      next e (next + 1)) :
    ∃ f : Row ℕ (CDatum β) → Row ℕ (CDatum β), t.rows env = (outer.rows env).map f ∧
      ∀ x ∈ outer.rows env,
        Counts sel e next (x.scope outer.outputColumns env) ((f x).scope t.outputColumns env) ∧
        ∀ c < next, (f x).scope t.outputColumns env c = if c ∈ columns then x c else env c := by
  have hout {c : ℕ} (hc : c ∈ columns) : c ∈ outer.outputColumns := hsub (List.mem_toFinset.mpr hc)
  have hT : (outerApply outer (sel.addProjection next (.constBool true))).outputColumns =
      outer.outputColumns ∪ (sel.outputColumns ∪ {next}) := by
    rw [CRelExpr.outputColumns_outerApply,CRelExpr.columns_addProjection]
  have hlt : ∀ c ∈ columns, c < next := fun c hc => h.outer_lt c (hout hc)
  subst ht
  refine ⟨_,rows_quantifiedGroupBy (CRelExpr.rows_outerApply outer _ env) hcols hlt (fun x _ hzero => ?_) (fun x _ r hr => ?_) hkey,
    fun x hx => ⟨?_,fun c hc => ?_⟩⟩
  · have hext := Multiset.map_eq_zero.mp hzero
    rw [LeftKind.extensions] at hext
    split at hext
    · exact singleton_ne_zero _ hext
    · exact absurd (congrArg Multiset.card hext) (by assumption)
  · obtain ⟨w,hw,rfl⟩ := Multiset.mem_map.mp hr
    have hsup := ((sel.addProjection next (.constBool true)).over_rows _).extensions _ w hw
    refine tuple_eq_iff.mpr fun c hc => ?_
    have hnot : c ∉ (sel.addProjection next (.constBool true)).outputColumns := by
      rw [CRelExpr.columns_addProjection,Finset.notMem_union,Finset.notMem_singleton]
      exact ⟨Finset.disjoint_left.mp h.disjoint (hout hc),(h.outer_lt c (hout hc)).ne⟩
    rw [hT,scope,if_pos (Finset.mem_union_left _ (hout hc)),Row.merge,hsup c hnot,or_none]
  · rw [scope_restrict]
    refine Counts.congr ?_ (by rw [scope,if_pos]; simp [mem_quantifiedGroupBy hlt])
      (by rw [scope,if_pos]; simp [mem_quantifiedGroupBy hlt])
    have hxnext : x next = none :=
      outer.over_rows env x hx next fun hmem => (h.outer_lt next hmem).false
    rw [hT,CRelExpr.rows_addProjection,LeftKind.extensions,Multiset.card_map]
    by_cases hne : sel.rows (x.scope outer.outputColumns env) = 0
    · refine ⟨.inl ?_,fun hne' => absurd hne hne'⟩
      have hnull (r : Row ℕ (CDatum β)) (hr : r next = none) :
          (CScalarAggFunc.count next).value {r} = some (.int 0) := by
        simp [CScalarAggFunc.value,← cons_zero,hr]
      rw [hne,Multiset.card_zero,if_pos rfl,Multiset.map_singleton,Multiset.map_singleton,
        merge_null,countedRow,Multiset.map_singleton,hnull]
      · simp [assign,ofTuple]
      · simp [assign_singleton,scope,hxnext]
    · rw [if_neg (Multiset.card_eq_zero.not.mpr hne),Multiset.map_map,Multiset.map_map]
      refine counts_countedRow hne (fun y _ => ?_) (fun y hy => ?_) _
      · simp [scope,Row.merge,hxnext,assign_singleton]
      · exact h.agreeOn_merge env (outer.over_rows env x hx) (sel.over_rows _ y hy) _
  · have hnew : ¬ (c = next + 1 ∨ c = next + 3) := by omega
    have hmem : c ∈ columns ∧ c ∈ (outerApply outer
        (sel.addProjection next (.constBool true))).outputColumns ↔ c ∈ columns :=
      and_iff_left_of_imp fun hc => hT ▸ Finset.mem_union_left _ (hout hc)
    rw [scope_restrict,scope,countedRow_of_lt hc]
    simp only [mem_quantifiedGroupBy hlt,hnew,or_false,hmem]
    split
    · next hmem => exact ofTuple_tuple hmem
    · rfl

theorem exists_group_below (hcols : columns ≠ []) (hlt : ∀ c ∈ columns, c < next)
    (hkey : ∀ y ∈ sel.rows E, ∀ y' ∈ sel.rows E, ∀ c ∈ columns,
      y.scope sel.outputColumns E c = y'.scope sel.outputColumns E c) (hne : sel.rows E ≠ 0) :
    ∃ g : Row ℕ (CDatum β), (quantifiedGroupBy (sel.addProjection next (.constBool true)) columns
        next e (next + 1)).rows E = {g} ∧ Counts sel e next E g := by
  obtain ⟨y,hy⟩ := exists_mem_of_ne_zero hne
  have hrows : (sel.addProjection next (.constBool true)).rows E =
      (sel.rows E).map fun y => y.assign [next] [some (.bool true)] := by
    rw [CRelExpr.rows_addProjection]
    simp only [CValueExpr.eval_constBool]
  have hsc (y : Row ℕ (CDatum β)) {c : ℕ} (hc : c < next) :
      (y.assign [next] [some (.bool true)]).scope
        (sel.addProjection next (.constBool true)).outputColumns E c =
          y.scope sel.outputColumns E c := by
    simp [CRelExpr.columns_addProjection,scope,assign_singleton,hc.ne]
  refine ⟨_,rows_quantifiedGroupBy (Z := {y}) (B := fun _ => _)
    (k := fun y => (y.scope sel.outputColumns E).tuple columns) (singleton_bind _ _).symm hcols hlt
    (fun _ _ hzero => ?_) (fun _ hz r hr => ?_) (nodup_singleton _),Counts.congr ?_
      (if_pos ((mem_quantifiedGroupBy hlt).mpr (by simp)))
      (if_pos ((mem_quantifiedGroupBy hlt).mpr (by simp)))⟩
  · rw [hrows] at hzero
    exact hne (Multiset.map_eq_zero.mp hzero)
  · rw [hrows] at hr
    obtain ⟨y',hy',rfl⟩ := Multiset.mem_map.mp hr
    rw [Multiset.mem_singleton.mp hz]
    exact tuple_eq_iff.mpr fun c hc => (hsc y' (hlt c hc)).trans (hkey y' hy' y hy c hc)
  · rw [hrows,Multiset.map_map]
    refine counts_countedRow hne (fun y _ => ?_) (fun y _ c hc => hsc y (h.used_lt c hc)) _
    simp [CRelExpr.columns_addProjection,scope,assign_singleton]

variable (env) in
/-- The grouping on the inner side, of rows that agree on the grouping columns: every outer row
comes out once, extended by NULLs when no inner row is kept for it. -/
theorem exists_rows_below (hcols : columns ≠ []) (hlt : ∀ c ∈ columns, c < next)
    (hkey : ∀ E, ∀ y ∈ sel.rows E, ∀ y' ∈ sel.rows E, ∀ c ∈ columns,
      y.scope sel.outputColumns E c = y'.scope sel.outputColumns E c) {t : CRelExpr β}
    (ht : t = outerApply outer (quantifiedGroupBy (sel.addProjection next (.constBool true)) columns
      next e (next + 1))) :
    ∃ f : Row ℕ (CDatum β) → Row ℕ (CDatum β), t.rows env = (outer.rows env).map f ∧
      ∀ x ∈ outer.rows env,
        Counts sel e next (x.scope outer.outputColumns env) ((f x).scope t.outputColumns env) ∧
        ∀ c < next, c ∉ sel.outputColumns →
          (f x).scope t.outputColumns env c = x.scope outer.outputColumns env c := by
  have hmem {c : ℕ} : c ∈ t.outputColumns ↔ c ∈ outer.outputColumns ∨ c ∈ columns ∧
      (c ∈ sel.outputColumns ∨ c = next) ∨ c = next + 1 ∨ c = next + 3 := by
    rw [ht,CRelExpr.outputColumns_outerApply,Finset.mem_union,mem_quantifiedGroupBy hlt,
      CRelExpr.columns_addProjection,Finset.mem_union,Finset.mem_singleton]
  have hgrp : ∀ x ∈ outer.rows env, ∃ r : Row ℕ (CDatum β),
      (LeftKind.outer.extensions ((quantifiedGroupBy (sel.addProjection next (.constBool true))
        columns next e (next + 1)).rows (x.scope outer.outputColumns env))).map x.merge = {r} ∧
      Counts sel e next (x.scope outer.outputColumns env) (r.scope t.outputColumns env) ∧
      ∀ c < next, c ∉ sel.outputColumns →
        r.scope t.outputColumns env c = x.scope outer.outputColumns env c := by
    intro x hx
    have hxout {c : ℕ} (hc : c ∉ outer.outputColumns) : x c = none := outer.over_rows env x hx c hc
    have hxnew {c : ℕ} (hc : next ≤ c) : x c = none := hxout fun hmem => (h.outer_lt c hmem).not_ge hc
    have hold {c : ℕ} (hc : c < next) : ¬ (c = next + 1 ∨ c = next + 3) := by omega
    by_cases hne : sel.rows (x.scope outer.outputColumns env) = 0
    · have hrows : (sel.addProjection next (.constBool true)).rows (x.scope outer.outputColumns env) =
          (0 : Multiset Unit).bind fun _ => 0 := by
        rw [CRelExpr.rows_addProjection,hne]
        rfl
      refine ⟨x,?_,⟨.inr ⟨Multiset.card_eq_zero.mpr hne,?_⟩,fun h => absurd hne h⟩,
        fun c hc hsel => ?_⟩
      · rw [rows_quantifiedGroupBy (k := fun _ => []) hrows hcols hlt nofun nofun nodup_zero]
        simp [LeftKind.extensions]
      · rw [scope,if_pos (hmem.mpr (by simp)),hxnew (by omega)]
      · simp [scope,hmem,hold hc,hsel,hc.ne]
    · obtain ⟨g,hg,hcou⟩ := exists_group_below h hcols hlt (hkey _) hne
      have hgsel {c : ℕ} (hc : c < next) (hsel : c ∉ sel.outputColumns) : g c = none := by
        refine CRelExpr.over_rows _ _ g (hg ▸ Multiset.mem_singleton_self g) c fun hcg => ?_
        rw [Finset.mem_coe,mem_quantifiedGroupBy hlt,CRelExpr.columns_addProjection] at hcg
        simp [hold hc,hsel,hc.ne] at hcg
      refine ⟨x.merge g,?_,hcou.congr ?_ ?_,fun c hc hsel => ?_⟩
      · simp [hg,LeftKind.extensions]
      · rw [scope,if_pos (hmem.mpr (by simp)),Row.merge,hxnew (by omega),none_or]
      · rw [scope,if_pos (hmem.mpr (by simp)),Row.merge,hxnew (by omega),none_or]
      · simp [scope,Row.merge,hmem,hold hc,hsel,hc.ne,hgsel hc hsel]
  choose! f hf using hgrp
  refine ⟨f,?_,fun x hx => (hf x hx).2⟩
  rw [ht,CRelExpr.rows_outerApply,← bind_singleton]
  exact Multiset.bind_congr fun x hx => (hf x hx).1

end

variable (ctx op operand column inner) in
theorem nullsAmong_pexprInnerSelect (E : Row ℕ (CDatum β)) :
    nullsAmong (CValueExpr.quantifiedCmp op operand column)
        (pexprInnerSelect ctx op operand column inner) E = nullRows ctx op operand column inner E := by
  rw [nullsAmong,rows_pexprInnerSelect,nullRows]
  exact countP_congr rfl fun y _ => propext eval_quantifiedCmp_eq_none_iff

section

variable (ctx op operand column inner) in
def comparisons (E : Row ℕ (CDatum β)) : Multiset (Option Bool) :=
  (inner.rows E).map (cmpValue op operand column inner E)

variable {E : Row ℕ (CDatum β)} {value : Bool}

theorem card_keptRows : (keptRows ctx op operand column inner E).card
    = (comparisons op operand column inner E).countP fun t =>
      if useNotNullableInnerOpt ctx op column inner then t = some true else t ≠ some false := by
  rw [comparisons,countP_map]
  rfl

/-- The counts give the value when a NULL comparison is kept or there is none. -/
theorem rebuilt_keptRows (hnone : useNotNullableInnerOpt ctx op column inner = true →
      none ∉ comparisons op operand column inner E) :
    rebuilt value (keptRows ctx op operand column inner E).card
        (nullRows ctx op operand column inner E)
      = quantifiedValue value (comparisons op operand column inner E) := by
  by_cases hopt : useNotNullableInnerOpt ctx op column inner = true
  · have hnull : nullRows ctx op operand column inner E = 0 := by
      refine countP_eq_zero.mpr fun y hy hcmp => hnone hopt ?_
      rw [← hcmp]
      exact Multiset.mem_map_of_mem _ (Multiset.mem_of_mem_filter hy)
    rw [hnull,card_keptRows,← rebuilt_of_isTrue value (hnone hopt),Multiset.count]
    simp only [hopt,if_true,eq_comm]
  · have hnull : nullRows ctx op operand column inner E
        = (comparisons op operand column inner E).count none := by
      rw [nullRows,keptRows,comparisons,countP_filter,Multiset.count,countP_map,
        countP_eq_card_filter]
      refine congrArg Multiset.card (Multiset.filter_congr fun y _ => ?_)
      rw [if_neg hopt,eq_comm]
      exact and_iff_left_of_imp fun hy => by rw [← hy]; exact nofun
    rw [hnull,card_keptRows,← rebuilt_of_notFalse]
    simp only [hopt,Bool.false_eq_true,if_false]

/-- The operand on top of the inner side: `inner` has the rows of `subquery`, maybe with further
columns, and `operand` has in each of them the value that `scalar` has outside. -/
structure OperandOver (subquery inner : CRelExpr β) (column : ℕ) (scalar operand : CValueExpr β) :
    Prop where
  rows_eq : ∀ E, ∃ g : Row ℕ (CDatum β) → Row ℕ (CDatum β),
    inner.rows E = (subquery.rows E).map g ∧ ∀ y ∈ subquery.rows E,
      (g y).scope inner.outputColumns E column = y.scope subquery.outputColumns E column ∧
      operand.eval ((g y).scope inner.outputColumns E) = scalar.eval E

theorem OperandOver.self {subquery : CRelExpr β} {scalar : CValueExpr β}
    (h : Disjoint scalar.usedColumns subquery.outputColumns) :
    OperandOver subquery subquery column scalar scalar where
  rows_eq E := by
    refine ⟨id,(map_id _).symm,fun y _ => ⟨rfl,scalar.eval_congr fun c hc => ?_⟩⟩
    rw [scope,if_neg (Finset.disjoint_left.mp h hc)]

variable {subquery : CRelExpr β} {scalar : CValueExpr β}

theorem OperandOver.eval_operand (h : OperandOver subquery inner column scalar operand)
    {y : Row ℕ (CDatum β)} (hy : y ∈ inner.rows E) :
    operand.eval (y.scope inner.outputColumns E) = scalar.eval E := by
  obtain ⟨g,hrows,hg⟩ := h.rows_eq E
  rw [hrows] at hy
  obtain ⟨y',hy',rfl⟩ := Multiset.mem_map.mp hy
  exact (hg y' hy').2

theorem OperandOver.comparisons_eq (h : OperandOver subquery inner column scalar operand) :
    comparisons op operand column inner E = (subquery.rows E).map fun y =>
      op.value (scalar.eval E) (y.scope subquery.outputColumns E column) := by
  obtain ⟨g,hrows,hg⟩ := h.rows_eq E
  rw [comparisons,hrows,Multiset.map_map]
  refine Multiset.map_congr rfl fun y hy => ?_
  rw [Function.comp_apply,cmpValue,(hg y hy).1,(hg y hy).2]

def NotNullSound (ctx : CSubqueryContext β) (t : CRelExpr β) : Prop :=
  ∀ E, ∀ y ∈ t.rows E, ∀ c ∈ ctx.notNullColumns t, (y c).isSome = true

variable (hoperand : OperandOver subquery inner column scalar operand)
  (hnotNull : NotNullSound ctx inner) (hopt : useNotNullableInnerOpt ctx op column inner = true)

include hoperand hnotNull hopt

theorem isSome_of_mem_comparisons {t : Option Bool}
    (ht : t ∈ comparisons op operand column inner E) : t.isSome = (scalar.eval E).isSome := by
  rw [useNotNullableInnerOpt,Bool.and_eq_true,decide_eq_true_eq] at hopt
  obtain ⟨y,hy,rfl⟩ := Multiset.mem_map.mp ht
  have hsome : (y column).isSome = true := hnotNull E y hy column hopt.1
  have hcol : column ∈ inner.outputColumns := by
    by_contra hnot
    rw [inner.over_rows E y hy column hnot] at hsome
    exact Bool.false_ne_true hsome
  rw [cmpValue,op.isSome_value hopt.2,hoperand.eval_operand hy,scope,if_pos hcol,hsome,
    Bool.and_true]

theorem none_notMem_comparisons (hsc : scalar.eval E ≠ none) :
    none ∉ comparisons op operand column inner E := by
  intro hmem
  have hsome := isSome_of_mem_comparisons hoperand hnotNull hopt hmem
  exact hsc (isNone_iff_eq_none.mp (by rw [← not_isSome,← hsome]; rfl))

/-- When no row is kept, the value is NULL exactly when there are rows and the operand is NULL. -/
theorem quantifiedValue_of_not_kept (hkept : keptRows ctx op operand column inner E = 0) :
    quantifiedValue value (comparisons op operand column inner E)
      = if scalar.eval E = none ∧ (inner.rows E).card ≠ 0 then none else some !value := by
  by_cases hsc : scalar.eval E = none
  · by_cases hrows : inner.rows E = 0
    · rw [if_neg fun hboth => hboth.2 (Multiset.card_eq_zero.mpr hrows),comparisons,hrows,Multiset.map_zero]
      cases value <;> rfl
    · have hall : ∀ t ∈ comparisons op operand column inner E, t = none := fun t ht =>
        not_isSome_iff_eq_none.mp (by
          rw [isSome_of_mem_comparisons hoperand hnotNull hopt ht,hsc]
          exact Bool.false_ne_true)
      obtain ⟨y,hy⟩ := exists_mem_of_ne_zero hrows
      have hmem := Multiset.mem_map_of_mem (cmpValue op operand column inner E) hy
      have htrue : some true ∉ comparisons op operand column inner E := fun h =>
        nomatch hall _ h
      have hnone : none ∈ comparisons op operand column inner E := by
        rwa [hall _ hmem] at hmem
      rw [if_pos ⟨hsc,Multiset.card_eq_zero.not.mpr hrows⟩,quantifiedValue,Kleene.anyOf,if_neg htrue,if_pos hnone]
      cases value <;> rfl
  · rw [if_neg fun hboth => hsc hboth.1,
      ← rebuilt_keptRows fun _ => none_notMem_comparisons hoperand hnotNull hopt hsc,hkept]
    rfl

end

end

end CSubqueryHandler

end PgOrca.Unnesting
