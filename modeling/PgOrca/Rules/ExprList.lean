import PgOrca.Library.Rows

/-!
# Two project lists over one another

Set-returning elements of one list are expanded in lockstep. A rule may merge two lists, or move
elements of the upper one that do not need the lower one.
-/

namespace PgOrca.Rules

open Multiset
open List (mem_map nil_append append_nil append_assoc mem_map_of_mem mem_append mem_of_mem_filter)

universe u

inductive EFuncStbl
  | efsImmutable | efsStable | efsVolatile
  deriving DecidableEq, Repr

/-- An element of a project list, by the values it yields for a row. The first argument tells one
evaluation from another; only a volatile element depends on it. -/
structure CScalarProjectElement (δ : Type u) where
  pcr : ℕ
  pcrsUsed : Finset ℕ
  fHasNonScalarFunction : Bool
  efs : EFuncStbl
  values : ℕ → Row ℕ δ → List (Option δ)
  values_used : ∀ t r r', (∀ c ∈ pcrsUsed, r c = r' c) → values t r = values t r'
  values_stable : efs ≠ .efsVolatile → ∀ t t' r, values t r = values t' r

abbrev CScalarProjectList (δ : Type u) := List (CScalarProjectElement δ)

variable {δ : Type u}

/-- The value in the row of the expansion with the given number: the only value of a scalar
element, NULL where a set is exhausted. -/
def CScalarProjectElement.valueAt (pexprElem : CScalarProjectElement δ) (t : ℕ) (r : Row ℕ δ)
    (i : ℕ) : Option δ :=
  if pexprElem.fHasNonScalarFunction then (pexprElem.values t r).getD i none
  else (pexprElem.values t r).headD none

namespace CScalarProjectList

variable {r r' : Row ℕ δ}

def definedColumns (list : CScalarProjectList δ) : List ℕ :=
  list.map CScalarProjectElement.pcr

def fHasNonScalarFunction (list : CScalarProjectList δ) : Bool :=
  list.any CScalarProjectElement.fHasNonScalarFunction

def nonScalar (list : CScalarProjectList δ) : CScalarProjectList δ :=
  list.filter CScalarProjectElement.fHasNonScalarFunction

def scalar (list : CScalarProjectList δ) : CScalarProjectList δ :=
  list.filter fun pexprElem => !pexprElem.fHasNonScalarFunction

def expansion (list : CScalarProjectList δ) (t : ℕ) (r : Row ℕ δ) : ℕ :=
  if list.fHasNonScalarFunction then
    (list.nonScalar.map fun pexprElem => (pexprElem.values t r).length).foldr max 0
  else 1

def extendRow (list : CScalarProjectList δ) (t : ℕ) (r : Row ℕ δ) (i : ℕ) : Row ℕ δ := fun c =>
  match list.find? fun pexprElem => pexprElem.pcr == c with
  | some pexprElem => pexprElem.valueAt t r i
  | none => r c

def project (list : CScalarProjectList δ) (t : ℕ) (X : Multiset (Row ℕ δ)) : Multiset (Row ℕ δ) :=
  X.bind fun r => (Multiset.range (list.expansion t r)).map (list.extendRow t r)

def fReorderable (list : CScalarProjectList δ) : Bool :=
  list.all fun pexprElem => pexprElem.efs != .efsVolatile

def fConcatSafe (upper lower : CScalarProjectList δ) : Bool :=
  upper.fReorderable && lower.fReorderable &&
    !(upper.fHasNonScalarFunction && lower.fHasNonScalarFunction)

def pexprConcat (upper lower : CScalarProjectList δ) : Option (CScalarProjectList δ) :=
  if fConcatSafe upper lower then some (upper.scalar ++ upper.nonScalar ++ lower) else none

def pcrsUsed (list : CScalarProjectList δ) : Finset ℕ :=
  list.foldr (fun pexprElem pcrs => pexprElem.pcrsUsed ∪ pcrs) ∅

def fDepsDisjoint (list : CScalarProjectList δ) (pdrgpcrSchema : List ℕ) : Bool :=
  decide (pdrgpcrSchema.toFinset ∩ list.pcrsUsed = ∅)

def fIndependent (lower : CScalarProjectList δ) (pexprElem : CScalarProjectElement δ) : Bool :=
  decide (pexprElem.pcrsUsed ∩ lower.definedColumns.toFinset = ∅)

/-- The set-returning elements move together or not at all. -/
def fMoveSrfCohort (upper lower : CScalarProjectList δ) : Bool :=
  !lower.fHasNonScalarFunction && upper.nonScalar.all lower.fIndependent

def moved (upper lower : CScalarProjectList δ) : CScalarProjectList δ :=
  upper.scalar.filter lower.fIndependent ++
    if fMoveSrfCohort upper lower then upper.nonScalar else []

def residual (upper lower : CScalarProjectList δ) : CScalarProjectList δ :=
  (upper.scalar.filter fun pexprElem => !lower.fIndependent pexprElem) ++
    if fMoveSrfCohort upper lower then [] else upper.nonScalar

/-- The merged lower list and the residual upper one. -/
def fSplit (upper lower : CScalarProjectList δ) :
    Option (CScalarProjectList δ × CScalarProjectList δ) :=
  if !upper.fReorderable || !lower.fReorderable then none
  else if (moved upper lower).isEmpty || (residual upper lower).isEmpty then none
  else some (moved upper lower ++ lower, residual upper lower)

/-! ### Values and rows -/

variable {list list' upper lower : CScalarProjectList δ} {pexprElem : CScalarProjectElement δ}

theorem values_eq (hsta : pexprElem.efs ≠ .efsVolatile) (h : ∀ c ∈ pexprElem.pcrsUsed, r c = r' c)
    (t t' : ℕ) : pexprElem.values t r = pexprElem.values t' r' :=
  (pexprElem.values_used t r r' h).trans (pexprElem.values_stable hsta t t' r')

theorem valueAt_eq (hsta : pexprElem.efs ≠ .efsVolatile) (h : ∀ c ∈ pexprElem.pcrsUsed, r c = r' c)
    (t t' i : ℕ) : pexprElem.valueAt t r i = pexprElem.valueAt t' r' i := by
  simp only [CScalarProjectElement.valueAt,values_eq hsta h t t']

theorem valueAt_scalar (h : pexprElem.fHasNonScalarFunction = false) (t : ℕ) (r : Row ℕ δ)
    (i j : ℕ) : pexprElem.valueAt t r i = pexprElem.valueAt t r j := by
  simp [CScalarProjectElement.valueAt,h]

theorem extendRow_of_mem (hnd : list.definedColumns.Nodup) (hmem : pexprElem ∈ list) (t : ℕ)
    (r : Row ℕ δ) (i : ℕ) : list.extendRow t r i pexprElem.pcr = pexprElem.valueAt t r i := by
  have hfind : list.find? (fun e => e.pcr == pexprElem.pcr) = some pexprElem := by
    cases hfd : list.find? fun e => e.pcr == pexprElem.pcr with
    | none => simp [List.find?_eq_none] at hfd; exact absurd rfl (hfd pexprElem hmem)
    | some found =>
      have heq : found.pcr = pexprElem.pcr := by simpa using List.find?_some hfd
      rw [List.inj_on_of_nodup_map hnd (List.mem_of_find?_eq_some hfd) hmem heq]
  simp only [extendRow,hfind]

theorem extendRow_of_notMem {c : ℕ} (hc : c ∉ list.definedColumns) (t : ℕ) (r : Row ℕ δ) (i : ℕ) :
    list.extendRow t r i c = r c := by
  have hfind : list.find? (fun e => e.pcr == c) = none := by
    rw [List.find?_eq_none]
    intro e he heq
    exact hc (mem_map.mpr ⟨e,he,by simpa using heq⟩)
  simp only [extendRow,hfind]

theorem fHasNonScalarFunction_iff : list.fHasNonScalarFunction = true ↔ list.nonScalar ≠ [] := by
  simp [fHasNonScalarFunction,nonScalar,List.filter_eq_nil_iff]

theorem expansion_eq_one (h : list.nonScalar = []) (t : ℕ) (r : Row ℕ δ) :
    list.expansion t r = 1 := by
  have hno : ¬ list.fHasNonScalarFunction = true := fun hyes => fHasNonScalarFunction_iff.mp hyes h
  simp [expansion,hno]

theorem map_extendRow_of_scalar (h : list.nonScalar = []) (t : ℕ) (r : Row ℕ δ) :
    (range (list.expansion t r)).map (list.extendRow t r) = {list.extendRow t r 0} := by
  rw [expansion_eq_one h,range_succ,range_zero]
  rfl

theorem scalar_of_nonScalar_eq_nil (h : list.nonScalar = []) (hmem : pexprElem ∈ list) :
    pexprElem.fHasNonScalarFunction = false := by
  rw [nonScalar,List.filter_eq_nil_iff] at h
  simpa using h pexprElem hmem

theorem expansion_congr (hls : list.nonScalar = list'.nonScalar) {t t' : ℕ}
    (h : ∀ e ∈ list'.nonScalar, e.values t r = e.values t' r') :
    list.expansion t r = list'.expansion t' r' := by
  have hflag : list.fHasNonScalarFunction = list'.fHasNonScalarFunction := by
    rw [Bool.eq_iff_iff,fHasNonScalarFunction_iff,fHasNonScalarFunction_iff,hls]
  have hvs : (list'.nonScalar.map fun e => (e.values t r).length) =
      list'.nonScalar.map fun e => (e.values t' r').length :=
    List.map_congr_left fun e he => congrArg List.length (h e he)
  simp only [expansion,hflag,hls,hvs]

theorem nonScalar_append (list list' : CScalarProjectList δ) :
    (list ++ list').nonScalar = list.nonScalar ++ list'.nonScalar :=
  List.filter_append _ _

theorem nonScalar_filter_scalar (list : CScalarProjectList δ) (p : CScalarProjectElement δ → Bool) :
    nonScalar (list.scalar.filter p) = [] := by
  simp +contextual [nonScalar,scalar,List.filter_eq_nil_iff]

theorem nonScalar_nonScalar (list : CScalarProjectList δ) :
    list.nonScalar.nonScalar = list.nonScalar := by
  simp [nonScalar]

theorem fReorderable_stable (h : list.fReorderable = true) (hmem : pexprElem ∈ list) :
    pexprElem.efs ≠ .efsVolatile := by
  simpa using List.all_eq_true.mp h pexprElem hmem

theorem notMem_of_fIndependent (h : lower.fIndependent pexprElem = true) {c : ℕ}
    (hc : c ∈ pexprElem.pcrsUsed) : c ∉ lower.definedColumns := by
  intro hmem
  have hdj := Finset.disjoint_iff_inter_eq_empty.mpr (of_decide_eq_true h)
  exact Finset.disjoint_left.mp hdj hc (List.mem_toFinset.mpr hmem)

/-! ### Moving elements below -/

/-- Every column is defined once, and what the upper list defines is new: no element of it reads a
column of its own list. -/
structure DistinctColumns (upper lower : CScalarProjectList δ) : Prop where
  nodup : (upper.definedColumns ++ lower.definedColumns).Nodup
  new : ∀ e ∈ upper, ∀ c ∈ e.pcrsUsed, c ∉ upper.definedColumns

structure Parts (upper lower moved residual : CScalarProjectList δ) : Prop where
  perm : upper.Perm (moved ++ residual)
  independent : ∀ e ∈ moved, lower.fIndependent e = true

section

variable {moved residual : CScalarProjectList δ}

section

variable (h : Parts upper lower moved residual) {e : CScalarProjectElement δ} {t₁ t₃ j j' : ℕ}

include h

theorem Parts.mem_iff : pexprElem ∈ upper ↔ pexprElem ∈ moved ∨ pexprElem ∈ residual :=
  h.perm.mem_iff.trans mem_append

theorem Parts.reads_input (he : e ∈ moved) (t j : ℕ) (r : Row ℕ δ) :
    ∀ c ∈ e.pcrsUsed, lower.extendRow t r j c = r c :=
  fun _ hc => extendRow_of_notMem (notMem_of_fIndependent (h.independent e he) hc) t r j

variable (hd : DistinctColumns upper lower)

include hd

theorem Parts.nodup :
    (moved.definedColumns ++ residual.definedColumns ++ lower.definedColumns).Nodup := by
  have hperm := (h.perm.symm.map CScalarProjectElement.pcr).append_right lower.definedColumns
  rw [List.map_append] at hperm
  exact hperm.nodup_iff.mpr hd.nodup

theorem Parts.nodup_merged : (moved ++ lower).definedColumns.Nodup := by
  have hall := h.nodup hd
  rw [append_assoc] at hall
  have hsub : (moved.definedColumns ++ lower.definedColumns).Sublist
      (moved.definedColumns ++ (residual.definedColumns ++ lower.definedColumns)) :=
    (List.Sublist.refl _).append (List.sublist_append_right _ _)
  simpa [definedColumns] using hall.sublist hsub

theorem Parts.moved_notMem_residual (he : e ∈ moved) : e.pcr ∉ residual.definedColumns := by
  intro hmem
  exact (List.nodup_append.mp (h.nodup hd).of_append_left).2.2 e.pcr (mem_map_of_mem he) e.pcr hmem
    rfl

section

variable (hlower : ∀ e ∈ lower, e.valueAt t₁ r j = e.valueAt t₃ r j')

include hlower

/-- The rows below the upper list and below the residual one differ in the moved columns only. -/
theorem Parts.agree_off_moved {c : ℕ} (hc : c ∉ moved.definedColumns) :
    lower.extendRow t₁ r j c = (moved ++ lower).extendRow t₃ r j' c := by
  by_cases hmem : c ∈ lower.definedColumns
  · obtain ⟨e,he,rfl⟩ := mem_map.mp hmem
    have hnd : lower.definedColumns.Nodup := hd.nodup.of_append_right
    rw [extendRow_of_mem hnd he,extendRow_of_mem (h.nodup_merged hd) (List.mem_append_right _ he)]
    exact hlower e he
  · have hnone : c ∉ (moved ++ lower).definedColumns := by
      rw [definedColumns,List.map_append,mem_append,not_or]
      exact ⟨hc,hmem⟩
    rw [extendRow_of_notMem hmem,extendRow_of_notMem hnone]

theorem Parts.extendRow_eq {t₂ t₄ i i' : ℕ}
    (hmv : ∀ e ∈ moved, e.valueAt t₂ (lower.extendRow t₁ r j) i = e.valueAt t₃ r j')
    (hresi : ∀ e ∈ residual, e.valueAt t₂ (lower.extendRow t₁ r j) i =
      e.valueAt t₄ ((moved ++ lower).extendRow t₃ r j') i') :
    upper.extendRow t₂ (lower.extendRow t₁ r j) i =
      residual.extendRow t₄ ((moved ++ lower).extendRow t₃ r j') i' := by
  have hnd : upper.definedColumns.Nodup := hd.nodup.of_append_left
  funext c
  by_cases hc : c ∈ upper.definedColumns
  · obtain ⟨e,he,rfl⟩ := mem_map.mp hc
    rw [extendRow_of_mem hnd he]
    rcases h.mem_iff.mp he with hmem | hmem
    · rw [extendRow_of_notMem (h.moved_notMem_residual hd hmem),
        extendRow_of_mem (h.nodup_merged hd) (List.mem_append_left _ hmem)]
      exact hmv e hmem
    · rw [extendRow_of_mem (h.nodup hd).of_append_left.of_append_right hmem]
      exact hresi e hmem
  · have hmov : c ∉ moved.definedColumns := fun hmem => by
      obtain ⟨e,he,rfl⟩ := mem_map.mp hmem
      exact hc (mem_map_of_mem (h.mem_iff.mpr (.inl he)))
    have hres : c ∉ residual.definedColumns := fun hmem => by
      obtain ⟨e,he,rfl⟩ := mem_map.mp hmem
      exact hc (mem_map_of_mem (h.mem_iff.mpr (.inr he)))
    rw [extendRow_of_notMem hc,extendRow_of_notMem hres]
    exact h.agree_off_moved hd hlower hmov

theorem Parts.reads_same (he : e ∈ upper) :
    ∀ c ∈ e.pcrsUsed, lower.extendRow t₁ r j c = (moved ++ lower).extendRow t₃ r j' c := by
  intro c hc
  refine h.agree_off_moved hd hlower fun hmem => hd.new e he c hc ?_
  obtain ⟨m,hm,rfl⟩ := mem_map.mp hmem
  exact mem_map_of_mem (h.mem_iff.mpr (.inl hm))

end

end

variable {t₁ t₂ t₃ t₄ : ℕ}

theorem Parts.project_eq_of_cohort (h : Parts upper lower moved residual)
    (hd : DistinctColumns upper lower) (hup : upper.fReorderable = true)
    (hlower : lower.fReorderable = true) (hnone : lower.nonScalar = [])
    (hres : residual.nonScalar = []) (hcoh : upper.nonScalar = moved.nonScalar)
    (X : Multiset (Row ℕ δ)) :
    upper.project t₂ (lower.project t₁ X) =
      residual.project t₄ ((moved ++ lower).project t₃ X) := by
  simp only [project,bind_assoc]
  apply Multiset.bind_congr
  intro r _
  have hcnt : upper.expansion t₂ (lower.extendRow t₁ r 0) =
      (moved ++ lower).expansion t₃ r := by
    apply expansion_congr
    · rw [nonScalar_append,hnone,append_nil,hcoh]
    · intro e he
      rw [nonScalar_append,hnone,append_nil] at he
      have hmem := mem_of_mem_filter he
      exact values_eq (fReorderable_stable hup (h.mem_iff.mpr (.inl hmem)))
        (h.reads_input hmem t₁ 0 r) t₂ t₃
  rw [map_extendRow_of_scalar hnone,singleton_bind,hcnt,bind_map]
  simp only [map_extendRow_of_scalar hres,bind_singleton]
  apply Multiset.map_congr rfl
  intro k _
  have hvs : ∀ e ∈ lower, e.valueAt t₁ r 0 = e.valueAt t₃ r k := fun e he =>
    (valueAt_eq (fReorderable_stable hlower he) (fun _ _ => rfl) t₁ t₃ 0).trans
      (valueAt_scalar (scalar_of_nonScalar_eq_nil hnone he) t₃ r 0 k)
  apply h.extendRow_eq hd hvs
  · intro e he
    exact valueAt_eq (fReorderable_stable hup (h.mem_iff.mpr (.inl he)))
      (h.reads_input he t₁ 0 r) t₂ t₃ k
  · intro e he
    have hmem : e ∈ upper := h.mem_iff.mpr (.inr he)
    exact (valueAt_eq (fReorderable_stable hup hmem) (h.reads_same hd hvs hmem) t₂ t₄
      k).trans (valueAt_scalar (scalar_of_nonScalar_eq_nil hres he) t₄ _ k 0)

theorem Parts.project_eq_of_scalar (h : Parts upper lower moved residual)
    (hd : DistinctColumns upper lower) (hup : upper.fReorderable = true)
    (hlower : lower.fReorderable = true) (hmv : moved.nonScalar = [])
    (hcoh : upper.nonScalar = residual.nonScalar) (X : Multiset (Row ℕ δ)) :
    upper.project t₂ (lower.project t₁ X) =
      residual.project t₄ ((moved ++ lower).project t₃ X) := by
  simp only [project,bind_assoc]
  apply Multiset.bind_congr
  intro r _
  have hcnt : lower.expansion t₁ r = (moved ++ lower).expansion t₃ r := by
    apply expansion_congr
    · rw [nonScalar_append,hmv,nil_append]
    · intro e he
      rw [nonScalar_append,hmv,nil_append] at he
      exact values_eq (fReorderable_stable hlower (mem_of_mem_filter he)) (fun _ _ => rfl) t₁ t₃
  rw [hcnt,bind_map,bind_map]
  apply Multiset.bind_congr
  intro j _
  have hvs : ∀ e ∈ lower, e.valueAt t₁ r j = e.valueAt t₃ r j := fun e he =>
    valueAt_eq (fReorderable_stable hlower he) (fun _ _ => rfl) t₁ t₃ j
  have hcnt' : upper.expansion t₂ (lower.extendRow t₁ r j) =
      residual.expansion t₄ ((moved ++ lower).extendRow t₃ r j) := by
    apply expansion_congr hcoh
    intro e he
    have hmem : e ∈ upper := h.mem_iff.mpr (.inr (mem_of_mem_filter he))
    exact values_eq (fReorderable_stable hup hmem) (h.reads_same hd hvs hmem) t₂ t₄
  rw [hcnt']
  apply Multiset.map_congr rfl
  intro i _
  apply h.extendRow_eq hd hvs
  · intro e he
    exact (valueAt_eq (fReorderable_stable hup (h.mem_iff.mpr (.inl he)))
      (h.reads_input he t₁ j r) t₂ t₃ i).trans
      (valueAt_scalar (scalar_of_nonScalar_eq_nil hmv he) t₃ r i j)
  · intro e he
    have hmem : e ∈ upper := h.mem_iff.mpr (.inr he)
    exact valueAt_eq (fReorderable_stable hup hmem) (h.reads_same hd hvs hmem) t₂ t₄ i

end

/-! ### The two operations -/

theorem perm_scalar_append_nonScalar (list : CScalarProjectList δ) :
    list.Perm (list.scalar ++ list.nonScalar) := by
  have hperm := List.filter_append_perm CScalarProjectElement.fHasNonScalarFunction list
  exact hperm.symm.trans List.perm_append_comm

theorem parts_of_split (upper lower : CScalarProjectList δ) :
    Parts upper lower (moved upper lower) (residual upper lower) where
  perm := by
    have hsc := List.filter_append_perm lower.fIndependent upper.scalar
    have hup := perm_scalar_append_nonScalar upper
    unfold moved residual
    cases fMoveSrfCohort upper lower with
    | true =>
      simp only [if_true,append_nil]
      refine hup.trans ((hsc.symm.append_right _).trans ?_)
      rw [append_assoc,append_assoc]
      exact List.perm_append_comm.append_left _
    | false =>
      simp only [Bool.false_eq_true,if_false,append_nil]
      refine hup.trans ((hsc.symm.append_right _).trans ?_)
      rw [append_assoc]
  independent := by
    intro e he
    rcases mem_append.mp he with he | he
    · exact (List.mem_filter.mp he).2
    · cases hmove : fMoveSrfCohort upper lower with
      | true =>
        rw [hmove,if_pos rfl] at he
        exact List.all_eq_true.mp (Bool.and_eq_true_iff.mp hmove).2 e he
      | false =>
        rw [hmove] at he
        cases he

theorem nonScalar_eq_nil_of_flag (h : (!list.fHasNonScalarFunction) = true) :
    list.nonScalar = [] := by
  by_contra hne
  rw [fHasNonScalarFunction_iff.mpr hne] at h
  cases h

theorem project_split (hd : DistinctColumns upper lower) (hup : upper.fReorderable = true)
    (hlower : lower.fReorderable = true) (t₁ t₂ t₃ t₄ : ℕ) (X : Multiset (Row ℕ δ)) :
    upper.project t₂ (lower.project t₁ X) =
      (residual upper lower).project t₄ ((moved upper lower ++ lower).project t₃ X) := by
  have hps := parts_of_split upper lower
  cases hmove : fMoveSrfCohort upper lower with
  | true =>
    have hnone := nonScalar_eq_nil_of_flag (Bool.and_eq_true_iff.mp hmove).1
    apply hps.project_eq_of_cohort hd hup hlower hnone
    · simp [residual,hmove,nonScalar_filter_scalar]
    · rw [moved,hmove,if_pos rfl,nonScalar_append,nonScalar_filter_scalar,nil_append,
        nonScalar_nonScalar]
  | false =>
    apply hps.project_eq_of_scalar hd hup hlower
    · simp [moved,hmove,nonScalar_filter_scalar]
    · rw [residual,hmove,if_neg Bool.false_ne_true,nonScalar_append,nonScalar_filter_scalar,
        nil_append,nonScalar_nonScalar]

theorem project_nil (t : ℕ) (X : Multiset (Row ℕ δ)) : project [] t X = X := by
  have hrow : ∀ r : Row ℕ δ, (range (expansion [] t r)).map (extendRow [] t r) = {r} :=
    fun r => map_extendRow_of_scalar rfl t r
  simp only [project,hrow]
  exact (bind_singleton X id).trans (map_id X)

theorem fIndependent_of_fDepsDisjoint (h : upper.fDepsDisjoint lower.definedColumns = true)
    (hmem : pexprElem ∈ upper) : lower.fIndependent pexprElem = true := by
  have hsub : pexprElem.pcrsUsed ⊆ upper.pcrsUsed := by
    clear h
    induction upper with
    | nil => cases hmem
    | cons head rest ih =>
      rw [pcrsUsed,List.foldr_cons]
      rcases List.mem_cons.mp hmem with rfl | hmem
      · exact Finset.subset_union_left
      · exact (ih hmem).trans Finset.subset_union_right
  unfold fIndependent
  rw [decide_eq_true_iff,← Finset.subset_empty]
  have hemp := of_decide_eq_true h
  rw [← hemp,Finset.inter_comm]
  exact Finset.inter_subset_inter_left hsub

theorem parts_of_concat (hdj : upper.fDepsDisjoint lower.definedColumns = true) :
    Parts upper lower (upper.scalar ++ upper.nonScalar) [] where
  perm := by
    rw [append_nil]
    exact perm_scalar_append_nonScalar upper
  independent _ he :=
    fIndependent_of_fDepsDisjoint hdj ((perm_scalar_append_nonScalar upper).mem_iff.mpr he)

theorem project_concat (hd : DistinctColumns upper lower) (hsafe : fConcatSafe upper lower = true)
    (hdj : upper.fDepsDisjoint lower.definedColumns = true) (t₁ t₂ t₃ : ℕ)
    (X : Multiset (Row ℕ δ)) :
    upper.project t₂ (lower.project t₁ X) =
      (upper.scalar ++ upper.nonScalar ++ lower).project t₃ X := by
  simp only [fConcatSafe,Bool.and_eq_true] at hsafe
  obtain ⟨⟨hup,hlower⟩,hone⟩ := hsafe
  have hps := parts_of_concat hdj
  have hcoh : nonScalar (upper.scalar ++ upper.nonScalar) = upper.nonScalar := by
    have hsc := nonScalar_filter_scalar upper fun _ => true
    rw [List.filter_true] at hsc
    rw [nonScalar_append,nonScalar_nonScalar,hsc,nil_append]
  rw [← project_nil t₃ ((upper.scalar ++ upper.nonScalar ++ lower).project t₃ X)]
  -- only one of the two lists has set-returning elements
  by_cases hnone : lower.nonScalar = []
  · exact hps.project_eq_of_cohort hd hup hlower hnone rfl hcoh.symm X
  · have hsc : upper.nonScalar = [] := by
      apply nonScalar_eq_nil_of_flag
      rw [fHasNonScalarFunction_iff.mpr hnone,Bool.and_true] at hone
      exact hone
    apply hps.project_eq_of_scalar hd hup hlower _ _ X
    · rw [hcoh,hsc]
    · rw [hsc]
      rfl

/-- Splitting the upper of two lists, and merging two lists, keeps the bag of rows. -/
theorem split_and_concat_keep_rows (hd : DistinctColumns upper lower) (t₁ t₂ t₃ t₄ : ℕ)
    (X : Multiset (Row ℕ δ)) :
    (∀ merged residual, fSplit upper lower = some (merged, residual) →
      upper.project t₂ (lower.project t₁ X) = residual.project t₄ (merged.project t₃ X)) ∧
    (fConcatSafe upper lower = true → upper.fDepsDisjoint lower.definedColumns = true →
      ∃ list, pexprConcat upper lower = some list ∧
        upper.project t₂ (lower.project t₁ X) = list.project t₃ X) := by
  constructor
  · intro merged residual h
    unfold fSplit at h
    split_ifs at h with hgu hemp
    simp only [Bool.or_eq_true,Bool.not_eq_true',not_or,Bool.not_eq_false] at hgu
    cases h
    exact project_split hd hgu.1 hgu.2 t₁ t₂ t₃ t₄ X
  · intro hsafe hdj
    exact ⟨_,if_pos hsafe,project_concat hd hsafe hdj t₁ t₂ t₃ X⟩

end CScalarProjectList

/-! ### A list with a set-returning element over a scalar one -/

namespace SplitExample

open CScalarProjectList

def column (pcr colref : ℕ) : CScalarProjectElement ℕ where
  pcr := pcr
  pcrsUsed := {colref}
  fHasNonScalarFunction := false
  efs := .efsImmutable
  values _ r := [r colref]
  values_used _ _ _ h := by rw [h colref (Finset.mem_singleton_self colref)]
  values_stable _ _ _ _ := rfl

/-- `generate_series(1, colref)` -/
def series (pcr colref : ℕ) : CScalarProjectElement ℕ where
  pcr := pcr
  pcrsUsed := {colref}
  fHasNonScalarFunction := true
  efs := .efsImmutable
  values _ r := (List.range ((r colref).getD 0)).map fun i => some (i + 1)
  values_used _ _ _ h := by rw [h colref (Finset.mem_singleton_self colref)]
  values_stable _ _ _ _ := rfl

def lower : CScalarProjectList ℕ := [column 10 1]

/-- One element needs the lower list, the set-returning one does not. -/
def upper : CScalarProjectList ℕ := [column 11 10, series 12 2]

def input : Row ℕ ℕ := fun c => some (c + 1)

theorem upper_lower_distinct : DistinctColumns upper lower where
  nodup := by decide
  new := by
    simp [upper,column,series,definedColumns]

theorem split_keeps_rows :
    ∃ merged residual, fSplit upper lower = some (merged, residual) ∧
      upper.project 0 (lower.project 0 {input}) = residual.project 0 (merged.project 0 {input}) :=
  ⟨_,_,rfl,(split_and_concat_keep_rows upper_lower_distinct 0 0 0 0 {input}).1 _ _ rfl⟩

end SplitExample

end PgOrca.Rules
