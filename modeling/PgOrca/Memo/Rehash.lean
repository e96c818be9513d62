import PgOrca.Memo.Insertion

/-!
# Rehashing

Rehashing finds expressions that became equal when groups were marked as duplicates, and merges
their groups. Only merges for expressions of the rule engine are guarded.
-/

namespace PgOrca.Search

open Relation List

namespace CMemo

variable {α : Type*} {M : CMemo α} {pending : List (CGroupExpression α)}
  {found : CGroupExpression α}

/-- `M'` differs from `M` in the links inside classes only. -/
structure SameClasses (M M' : CMemo α) : Prop where
  listGExprs : M'.listGExprs = M.listGExprs
  fScalar : M'.fScalar = M.fScalar
  master : ∀ g, M'.pgroupDuplicateMaster g = M.pgroupDuplicateMaster g

section

variable {M' : CMemo α} {g h : ℕ}

theorem SameClasses.edge (h : SameClasses M M') : M'.Edge = M.Edge := by
  ext a b
  simp only [Edge,h.listGExprs,h.fScalar,h.master]

theorem SameClasses.inputClasses (h : SameClasses M M') (l : List ℕ) :
    M'.inputClasses l = M.inputClasses l := by
  simp only [CMemo.inputClasses,h.fScalar,h.master]

theorem SameClasses.reaches (h : SameClasses M M') : M'.Reaches = M.Reaches := by
  ext a b
  simp only [Reaches,h.edge,h.master]

theorem SameClasses.ownPath [COperator α] (h : SameClasses M M') : M'.OwnPath = M.OwnPath := by
  have hedge : M'.OwnEdge = M.OwnEdge := by
    ext a b
    simp only [OwnEdge,h.listGExprs,h.fScalar,h.master]
  ext a b
  simp only [OwnPath,hedge,h.fScalar,h.master]

theorem sameClasses_resolve (hM : M.Valid) (g h : ℕ) :
    SameClasses M ((M.resolveDuplicateMaster g).resolveDuplicateMaster h) :=
  ⟨rfl,rfl,fun x => by
    rw [master_resolveDuplicateMaster (hM.resolveDuplicateMaster g),
      master_resolveDuplicateMaster hM]⟩

theorem fDuplicateGroups_iff :
    M.fDuplicateGroups g h = true ↔ g = h ∨ M.pgroupDuplicate h = some g ∨
      M.pgroupDuplicate g = some h ∨
      ∃ m, M.pgroupDuplicate g = some m ∧ M.pgroupDuplicate h = some m := by
  simp only [fDuplicateGroups,Bool.or_eq_true,Bool.and_eq_true,decide_eq_true_eq,
    Option.isSome_iff_exists,or_assoc]
  refine or_congr_right (or_congr_right (or_congr_right ?_))
  constructor
  · rintro ⟨⟨m,hm⟩,heq⟩
    exact ⟨m,hm,heq ▸ hm⟩
  · rintro ⟨m,hg,hh⟩
    exact ⟨⟨m,hg⟩,hg.trans hh.symm⟩

theorem master_eq_of_fDuplicateGroups (hM : M.Valid) (hdup : M.fDuplicateGroups g h = true) :
    M.pgroupDuplicateMaster g = M.pgroupDuplicateMaster h := by
  rcases fDuplicateGroups_iff.mp hdup with rfl | hlink | hlink | ⟨m,hg,hh⟩
  · rfl
  · exact (follow_of_link hM.ascending hlink).symm
  · exact follow_of_link hM.ascending hlink
  · exact (follow_of_link hM.ascending hg).trans (follow_of_link hM.ascending hh).symm

theorem fScalar_eq_of_master_eq [COperator α] (hkinds : M.Kinds)
    (heq : M.pgroupDuplicateMaster g = M.pgroupDuplicateMaster h) : M.fScalar g = M.fScalar h := by
  have hma (x : ℕ) : M.fScalar x = M.fScalar (M.pgroupDuplicateMaster x) :=
    (linked_follow M.aul x).color hkinds.link
  rw [hma g,heq,← hma h]

theorem link_of_resolved (hM : M.Valid) (g : ℕ) :
    (M.resolveDuplicateMaster g).pgroupDuplicate g = none ∧ M.pgroupDuplicateMaster g = g ∨
      (M.resolveDuplicateMaster g).pgroupDuplicate g = some (M.pgroupDuplicateMaster g) := by
  cases hg : M.pgroupDuplicate g with
  | none => exact .inl ⟨compress_of_none hg,follow_of_none hM.ascending hg⟩
  | some h =>
    refine .inr ((compress_self hg).trans ?_)
    rw [pgroupDuplicateMaster,follow_of_link hM.ascending hg]

theorem fDuplicateGroups_resolved (hM : M.Valid) (hne : g ≠ h) :
    ((M.resolveDuplicateMaster g).resolveDuplicateMaster h).fDuplicateGroups g h = true ↔
      M.pgroupDuplicateMaster g = M.pgroupDuplicateMaster h := by
  have hM₁ := hM.resolveDuplicateMaster g
  have hsame := sameClasses_resolve hM g h
  constructor
  · intro hdup
    have := master_eq_of_fDuplicateGroups (hM₁.resolveDuplicateMaster h) hdup
    rwa [hsame.master,hsame.master] at this
  · intro heq
    have hg := link_of_resolved hM g
    have hh := link_of_resolved hM₁ h
    rw [master_resolveDuplicateMaster hM] at hh
    have hkeep : ((M.resolveDuplicateMaster g).resolveDuplicateMaster h).pgroupDuplicate g =
        (M.resolveDuplicateMaster g).pgroupDuplicate g := compress_of_ne hne
    rw [← hkeep] at hg
    refine fDuplicateGroups_iff.mpr ?_
    rcases hg with ⟨_,hgm⟩ | hg <;> rcases hh with ⟨_,hhm⟩ | hh
    · exact absurd (hgm.symm.trans (heq.trans hhm)) hne
    · exact .inr (.inl (hh.trans (congrArg some (heq.symm.trans hgm))))
    · exact .inr (.inr (.inl (hg.trans (congrArg some (heq.trans hhm)))))
    · exact .inr (.inr (.inr ⟨_,hg,hh.trans (congrArg some heq.symm)⟩))

theorem exists_mem_of_fMatchGroups {l l' : List ℕ} (hlen : l.length = l'.length)
    (h : M.fMatchGroups l l' = true) {c : ℕ} (hc : c ∈ l) :
    ∃ c' ∈ l', M.fDuplicateGroups c c' = true := by
  obtain ⟨i,hi,rfl⟩ := mem_iff_getElem.mp hc
  have hi' : i < l'.length := hlen ▸ hi
  refine ⟨l'[i],getElem_mem hi',?_⟩
  have hpair : (l[i], l'[i]) ∈ l.zip l' := by
    rw [← getElem_zip (h := by rw [length_zip]; omega)]
    exact getElem_mem _
  have hm := all_eq_true.mp h _ hpair
  rw [Bool.or_eq_true,decide_eq_true_eq] at hm
  rcases hm with heq | hdup
  · exact fDuplicateGroups_iff.mpr (.inl heq)
  · exact hdup

theorem inputClasses_subset_of_fMatches [COperator α] (hM : M.Valid) (hkinds : M.Kinds)
    {e e' : CGroupExpression α} (h : M.fMatches e e' = true) :
    M.inputClasses e.pdrgpgroup ⊆ M.inputClasses e'.pdrgpgroup := by
  rw [fMatches,Bool.and_eq_true,Bool.and_eq_true,decide_eq_true_eq] at h
  obtain ⟨⟨hlen,_⟩,hgs⟩ := h
  have hmem {c : ℕ} (hc : c ∈ e.pdrgpgroup) :
      ∃ c' ∈ e'.pdrgpgroup, M.fDuplicateGroups c c' = true := by
    split at hgs
    case isTrue => exact exists_mem_of_fMatchGroups hlen hgs hc
    case isFalse =>
      obtain ⟨c',hc',hdup⟩ := exists_mem_of_fMatchGroups
        (by rw [length_mergeSort,length_mergeSort,hlen]) hgs
        (mem_mergeSort.mpr hc)
      exact ⟨c',mem_mergeSort.mp hc',hdup⟩
  rintro _ ⟨c,hc,hsc,rfl⟩
  obtain ⟨c',hc',hdup⟩ := hmem hc
  have hma := master_eq_of_fDuplicateGroups hM hdup
  exact ⟨c',hc',(fScalar_eq_of_master_eq hkinds hma).symm.trans hsc,hma.symm⟩

theorem Kinds.resolveDuplicateMaster [COperator α] (h : M.Kinds) (g : ℕ) :
    (M.resolveDuplicateMaster g).Kinds :=
  ⟨compress_color h.link g,h.expression⟩

theorem Kinds.markDuplicates [COperator α] (hkinds : M.Kinds) (hM : M.Valid) (hne : g ≠ h)
    (hg : g < M.aul) (hh : h < M.aul) (hsame : M.fScalar g = M.fScalar h) :
    (M.markDuplicates g h).Kinds := by
  have hadd : (M.addDuplicateGrp g h).Kinds := by
    refine ⟨?_,hkinds.expression⟩
    rw [addDuplicateGrp]
    dsimp only
    split
    case isTrue hlt => exact addLink_color hM.ascending hkinds.link hsame.symm hlt hg (by omega)
    case isFalse hle => exact addLink_color hM.ascending hkinds.link hsame (by omega) hh (by omega)
  exact (hadd.resolveDuplicateMaster g).resolveDuplicateMaster h

end

section

variable [DecidableEq α]

theorem map_edge_moveDuplicateGExpr {e : CGroupExpression α} {f : ℕ → ℕ}
    (hfd : found ∈ M.listGExprs.erase e)
    (hcls : M.inputClasses e.pdrgpgroup ⊆ M.inputClasses found.pdrgpgroup)
    (hf : f (M.pgroupDuplicateMaster e.pgroup) = f (M.pgroupDuplicateMaster found.pgroup)) :
    Relation.Map (M.moveDuplicateGExpr e).Edge f f = Relation.Map M.Edge f f := by
  ext x y
  constructor
  · rintro ⟨a,b,⟨e',he',hedge⟩,hx,hy⟩
    exact ⟨a,b,⟨e',mem_of_mem_erase he',hedge⟩,hx,hy⟩
  · rintro ⟨a,b,⟨e',he',rfl,hin⟩,hx,hy⟩
    by_cases heq : e' = e
    · subst heq
      exact ⟨_,b,⟨found,hfd,rfl,hcls hin⟩,hf.symm.trans hx,hy⟩
    · exact ⟨_,b,⟨e',(mem_erase_of_ne heq).mpr he',rfl,hin⟩,hx,hy⟩

theorem acyclic_moveDuplicateGExpr (hac : Acyclic M.Edge) (e : CGroupExpression α) :
    Acyclic (M.moveDuplicateGExpr e).Edge :=
  hac.mono fun _ _ ⟨e',he',hedge⟩ => ⟨e',mem_of_mem_erase he',hedge⟩

end

variable [COperator α]

/-- A state of the loop of `FRehash` with the expressions that are still to be inserted. -/
structure Rehashing (M : CMemo α) (pending : List (CGroupExpression α)) : Prop where
  valid : M.Valid
  kinds : M.Kinds
  pending : (M.sht.map Prod.snd ++ pending).Subperm M.listGExprs

theorem Rehashing.resolve (h : Rehashing M pending)
    (g g' : ℕ) : Rehashing ((M.resolveDuplicateMaster g).resolveDuplicateMaster g') pending :=
  ⟨(h.valid.resolveDuplicateMaster g).resolveDuplicateMaster g',
    (h.kinds.resolveDuplicateMaster g).resolveDuplicateMaster g',h.pending⟩

/-- The groups of `e` and of the table entry found for it. -/
def MergePathSeen (M : CMemo α) (e : CGroupExpression α) : Prop :=
  ∀ found, M.find e = some found → found.pgroup ≠ e.pgroup → M.JoinPathSeen e.pgroup found.pgroup

section

variable {e : CGroupExpression α} {rest : List (CGroupExpression α)} (h : Rehashing M (e :: rest))

include h

theorem Rehashing.tail : Rehashing M rest :=
  ⟨h.valid,h.kinds,((sublist_cons_self e rest).append_left _).subperm.trans h.pending⟩

theorem Rehashing.subperm_cons : (e :: (M.sht.map Prod.snd ++ rest)).Subperm M.listGExprs :=
  perm_middle.symm.subperm.trans h.pending

theorem Rehashing.insertEntry : Rehashing (M.insertEntry e) rest :=
  ⟨⟨h.valid.ascending,h.valid.owner,h.valid.inputs,
    ((sublist_append_left _ _).cons_cons e).subperm.trans h.subperm_cons⟩,
    ⟨h.kinds.link,h.kinds.expression⟩,h.subperm_cons⟩

theorem Rehashing.mem : e ∈ M.listGExprs :=
  h.pending.subset (mem_append_right _ mem_cons_self)

theorem Rehashing.fScalar_found (hfind : M.find e = some found) :
    M.fScalar e.pgroup = M.fScalar found.pgroup := by
  obtain ⟨hmem,hm⟩ := mem_of_find h.valid hfind
  rw [fMatches,Bool.and_eq_true,Bool.and_eq_true] at hm
  rw [← h.kinds.expression e h.mem,← h.kinds.expression found hmem]
  exact COperator.fScalar_of_fMatches _ _ hm.1.2

variable [DecidableEq α]

theorem Rehashing.subperm_erase : (M.sht.map Prod.snd ++ rest).Subperm (M.listGExprs.erase e) := by
  have herase := h.subperm_cons.erase e
  rwa [erase_cons_head] at herase

theorem Rehashing.moveDuplicateGExpr : Rehashing (M.moveDuplicateGExpr e) rest :=
  have hsub := h.subperm_erase
  ⟨⟨h.valid.ascending,fun e' he' => h.valid.owner e' (mem_of_mem_erase he'),
      fun e' he' => h.valid.inputs e' (mem_of_mem_erase he'),
      (sublist_append_left _ _).subperm.trans hsub⟩,
    ⟨h.kinds.link,fun e' he' => h.kinds.expression e' (mem_of_mem_erase he')⟩,hsub⟩

theorem Rehashing.rehashStep (flag : Bool) : Rehashing (rehashStep (M, flag) e).1 rest := by
  rw [CMemo.rehashStep]
  dsimp only
  cases hfind : M.find e with
  | none => exact h.insertEntry
  | some found =>
    dsimp only
    split
    case isTrue => exact h.moveDuplicateGExpr
    case isFalse hne =>
      have hre := h.resolve e.pgroup found.pgroup
      split
      case isTrue => exact hre.tail
      case isFalse =>
        split
        case isTrue =>
          have hmv := hre.moveDuplicateGExpr
          have hg := h.valid.owner e h.mem
          have hh := h.valid.owner found (mem_of_find h.valid hfind).1
          exact ⟨hmv.valid.markDuplicates (Ne.symm hne) hg hh,
            hmv.kinds.markDuplicates hmv.valid (Ne.symm hne) hg hh (h.fScalar_found hfind),
            hmv.pending⟩
        case isFalse => exact hre.moveDuplicateGExpr

theorem acyclic_merge (hfd : found ∈ M.sht.map Prod.snd)
    (hcls : M.inputClasses e.pdrgpgroup ⊆ M.inputClasses found.pdrgpgroup)
    (hne : M.pgroupDuplicateMaster e.pgroup ≠ M.pgroupDuplicateMaster found.pgroup) :
    Acyclic ((M.moveDuplicateGExpr e).markDuplicates e.pgroup found.pgroup).Edge ↔
      Acyclic M.Edge ∧ ¬ (M.Reaches e.pgroup found.pgroup ∨ M.Reaches found.pgroup e.pgroup) := by
  have hlive : found ∈ M.listGExprs.erase e :=
    h.subperm_erase.subset (mem_append_left _ hfd)
  obtain ⟨a,b,hab,hma⟩ := master_markDuplicates h.moveDuplicateGExpr.valid
    (fun heq => hne (congrArg M.pgroupDuplicateMaster heq)) (h.valid.owner e h.mem)
    (h.valid.owner found (mem_of_mem_erase hlive))
  refine acyclic_of_joined hab ?_ hne
  rw [edge_markDuplicates hma,map_edge_moveDuplicateGExpr hlive hcls]
  rcases hab with ⟨rfl,rfl⟩ | ⟨rfl,rfl⟩
  · exact (if_pos rfl).trans (if_neg hne.symm).symm
  · exact (if_neg hne).trans (if_pos rfl).symm

theorem acyclic_merge_resolved (hfind : M.find e = some found)
    (hne : M.pgroupDuplicateMaster e.pgroup ≠ M.pgroupDuplicateMaster found.pgroup) :
    Acyclic ((((M.resolveDuplicateMaster e.pgroup).resolveDuplicateMaster
        found.pgroup).moveDuplicateGExpr e).markDuplicates e.pgroup found.pgroup).Edge ↔
      Acyclic M.Edge ∧ ¬ (M.Reaches e.pgroup found.pgroup ∨ M.Reaches found.pgroup e.pgroup) := by
  have hsame := sameClasses_resolve h.valid e.pgroup found.pgroup
  have hfd : found ∈ M.sht.map Prod.snd := mem_sht_of_find hfind
  have hcls := inputClasses_subset_of_fMatches h.valid h.kinds (mem_of_find h.valid hfind).2
  rw [← hsame.inputClasses,← hsame.inputClasses] at hcls
  rw [← hsame.master,← hsame.master] at hne
  rw [acyclic_merge (h.resolve e.pgroup found.pgroup) hfd hcls hne,hsame.edge,hsame.reaches]

theorem acyclic_rehashStep (hac : Acyclic M.Edge) (flag : Bool)
    (hDSL : ∀ found, M.find e = some found →
      (e.fHasDSLProvenance || found.fHasDSLProvenance) = true) :
    Acyclic (rehashStep (M, flag) e).1.Edge ↔ M.MergePathSeen e := by
  rw [CMemo.rehashStep,MergePathSeen]
  dsimp only
  cases hfind : M.find e with
  | none => exact iff_of_true hac nofun
  | some found =>
    have hsome (P : CGroupExpression α → Prop) : (∀ x, some found = some x → P x) ↔ P found :=
      ⟨fun hP => hP found rfl,fun hP x hx => Option.some.inj hx ▸ hP⟩
    rw [hsome]
    dsimp only
    split
    case isTrue heq => exact iff_of_true (acyclic_moveDuplicateGExpr hac e) fun hne => absurd heq hne
    case isFalse hne =>
      have hsame := sameClasses_resolve h.valid e.pgroup found.pgroup
      have hre := h.resolve e.pgroup found.pgroup
      have hdup := fDuplicateGroups_resolved h.valid (Ne.symm hne)
      have hg := h.valid.owner e h.mem
      have hmem := (mem_of_find h.valid hfind).1
      have hrch : (((M.resolveDuplicateMaster e.pgroup).resolveDuplicateMaster
            found.pgroup).fReachable e.pgroup found.pgroup ||
          ((M.resolveDuplicateMaster e.pgroup).resolveDuplicateMaster
            found.pgroup).fReachable found.pgroup e.pgroup) = true ↔
          M.OwnPath e.pgroup found.pgroup ∨ M.OwnPath found.pgroup e.pgroup := by
        rw [Bool.or_eq_true,fReachable_iff hre.valid hg,
          fReachable_iff hre.valid (h.valid.owner found hmem),hsame.ownPath]
      rw [hDSL found hfind,Bool.and_true]
      by_cases hcl : M.pgroupDuplicateMaster e.pgroup = M.pgroupDuplicateMaster found.pgroup
      · rw [hdup.mpr hcl,Bool.not_true,Bool.false_and]
        refine iff_of_true ?_ fun _ hdiff => absurd hcl hdiff
        refine acyclic_moveDuplicateGExpr ?_ e
        rwa [hsame.edge]
      · rw [Bool.eq_false_iff.mpr (mt hdup.mp hcl),Bool.not_false,Bool.true_and]
        by_cases hseen : M.OwnPath e.pgroup found.pgroup ∨ M.OwnPath found.pgroup e.pgroup
        · rw [if_pos (hrch.mpr hseen),hsame.edge]
          exact iff_of_true hac fun _ _ _ => hseen
        · rw [if_neg (mt hrch.mp hseen),if_pos rfl]
          rw [acyclic_merge_resolved h hfind hcl]
          refine (and_iff_right hac).trans ⟨fun hnot _ _ hpath => absurd hpath hnot,?_⟩
          exact fun hsafe hpath => hseen (hsafe hne hcl hpath)

end

variable [DecidableEq α]

theorem Rehashing.foldl {before : List (CGroupExpression α)} (h : Rehashing M (before ++ pending))
    (flag : Bool) : Rehashing (before.foldl CMemo.rehashStep (M, flag)).1 pending := by
  induction before generalizing M flag with
  | nil => exact h
  | cons e before ih => exact ih (h.rehashStep flag) _

omit [DecidableEq α] in
theorem rehashing_dumped (hM : M.Valid) (hkinds : M.Kinds) :
    Rehashing { M with sht := [] } (M.sht.map Prod.snd) :=
  ⟨⟨hM.ascending,hM.owner,hM.inputs,nil_subperm⟩,⟨hkinds.link,hkinds.expression⟩,hM.table⟩

/-- A whole rehashing pass keeps the invariants of the memo. -/
theorem fRehash_valid (hM : M.Valid) (hkinds : M.Kinds) :
    M.fRehash.1.Valid ∧ M.fRehash.1.Kinds := by
  have hrun := rehashing_dumped hM hkinds
  rw [← append_nil (map _ _)] at hrun
  exact ⟨(hrun.foldl false).valid,(hrun.foldl false).kinds⟩

/-- Inserting an alternative of the rule engine, marking duplicates for it and merging groups for
one of its expressions keep the dependency graph of the memo acyclic exactly when a path the new
edges or the joined classes would close also runs along logical expressions of duplicate masters. -/
theorem alternatives_keep_memo_acyclic (M : CMemo α) (hM : M.Valid) (hkinds : M.Kinds)
    (hacyclic : Acyclic M.Edge) :
    (∀ target < M.aul, ∀ pexpr : CExpression α, pexpr.BoundBelow M.aul →
      (Acyclic (CEngine.pgroupInsert M (some target) true pexpr).1.Edge ↔
        CEngine.BackPathSeen M target pexpr) ∧
      (Acyclic (CEngine.insertXformResult M target true pexpr).Edge ↔
        CEngine.BackPathSeen M target pexpr ∧
          CEngine.MarkPathSeen (CEngine.pgroupInsert M (some target) true pexpr).1 target
            (CEngine.pgroupInsert M (some target) true pexpr).2)) ∧
    ∀ before e rest, M.sht.map Prod.snd = before ++ e :: rest →
      ∀ state : CMemo α × Bool, state = before.foldl rehashStep ({ M with sht := [] }, false) →
        Acyclic state.1.Edge →
        (∀ found, state.1.find e = some found →
          (e.fHasDSLProvenance || found.fHasDSLProvenance) = true) →
        (Acyclic (rehashStep state e).1.Edge ↔ state.1.MergePathSeen e) := by
  refine ⟨fun target ht pexpr hbd => ⟨?_,?_⟩,?_⟩
  · exact (CEngine.pgroupInsert_some hM hacyclic ht hbd).2.2.2
  · exact CEngine.acyclic_insertXformResult hM hacyclic ht hbd
  · rintro before e rest hdump state rfl hstate hDSL
    have hrun := rehashing_dumped hM hkinds
    rw [hdump] at hrun
    exact acyclic_rehashStep (hrun.foldl false) hstate _ hDSL

end CMemo

/-! ## A path through a linked group -/

namespace LinkedGroups

open CMemo

structure CLogicalTest where
  number : ℕ
  deriving DecidableEq

instance : COperator CLogicalTest where
  fScalar _ := false
  fLogical _ := true
  fInputOrderSensitive _ := true
  fMatches a b := a = b
  getBucketIndex a _ := a.number
  deriveOutputColumns _ _ := ∅
  fScalar_of_fMatches _ _ _ := rfl

/-- Three groups with one expression each; the first group is linked to the second one and its
expression has the third one as input. -/
def memo (link : Option ℕ) : CMemo CLogicalTest where
  aul := 3
  fScalar _ := false
  outputColumns _ := ∅
  pgroupDuplicate g := if g = 0 then link else none
  listGExprs := [⟨⟨0⟩, [2], 0, false⟩, ⟨⟨1⟩, [], 1, false⟩, ⟨⟨2⟩, [], 2, false⟩]
  sht := [(0, ⟨⟨0⟩, [2], 0, false⟩), (1, ⟨⟨1⟩, [], 1, false⟩), (2, ⟨⟨2⟩, [], 2, false⟩)]

def alternative : CExpression CLogicalTest := .node ⟨3⟩ [.bound 1]

theorem valid_memo {link : Option ℕ} (hlink : link = none ∨ link = some 1) : (memo link).Valid := by
  refine ⟨fun g h hgh => ?_,by simp [memo],by simp [memo],(List.Perm.refl _).subperm⟩
  simp only [memo] at hgh
  split at hgh
  case isTrue hg =>
    rcases hlink with rfl | rfl
    · cases hgh
    · cases hgh
      exact ⟨by omega,by decide⟩
  case isFalse => cases hgh

theorem kinds_memo (link : Option ℕ) : (memo link).Kinds :=
  ⟨fun _ _ _ => rfl,fun _ _ => rfl⟩

theorem fRehash_memo : (memo (some 1)).fRehash.1.Valid :=
  (fRehash_valid (valid_memo (.inr rfl)) (kinds_memo _)).1

theorem acyclic_memo {link : Option ℕ} (hlink : link = none ∨ link = some 1) :
    Acyclic (memo link).Edge := by
  -- every edge ends in the third group, which has no inputs
  have hedge : ∀ a b, (memo link).Edge a b → b = 2 ∧ a ≠ 2 := by
    rintro a b ⟨e,he,rfl,c,hc,_,rfl⟩
    simp only [memo,mem_cons,not_mem_nil,or_false] at he
    rcases he with rfl | rfl | rfl
    · rw [mem_singleton.mp hc]
      rcases hlink with rfl | rfl <;> exact ⟨rfl,by decide⟩
    · cases hc
    · cases hc
  intro a ha
  obtain ⟨b,hab,_⟩ := TransGen.head'_iff.mp ha
  obtain ⟨c,_,hca⟩ := TransGen.tail'_iff.mp ha
  exact (hedge a b hab).2 (hedge c a hca).1

/-- The guard does not see the expression of the linked group. -/
theorem linked_expression_closes_cycle :
    (memo (some 1)).Valid ∧ (memo (some 1)).Kinds ∧ Acyclic (memo (some 1)).Edge ∧
      alternative.BoundBelow (memo (some 1)).aul ∧
      ¬ Acyclic (CEngine.pgroupInsert (memo (some 1)) (some 2) true alternative).1.Edge := by
  refine ⟨valid_memo (.inr rfl),kinds_memo _,acyclic_memo (.inr rfl),⟨Nat.lt_succ_of_le (Nat.le_succ 1),trivial⟩,?_⟩
  intro hac
  have hnew : (CEngine.pgroupInsert (memo (some 1)) (some 2) true alternative).1.Edge 2 1 :=
    ⟨⟨⟨3⟩,[1],2,true⟩,by decide,by decide,1,by decide,rfl,by decide⟩
  have hold : (CEngine.pgroupInsert (memo (some 1)) (some 2) true alternative).1.Edge 1 2 :=
    ⟨⟨⟨0⟩,[2],0,false⟩,by decide,by decide,2,by decide,rfl,by decide⟩
  exact hac 2 (.head hnew (.single hold))

theorem unlinked_alternative_kept :
    Acyclic (CEngine.pgroupInsert (memo none) (some 2) true alternative).1.Edge := by
  refine ((alternatives_keep_memo_acyclic (memo none) (valid_memo (.inl rfl)) (kinds_memo none)
    (acyclic_memo (.inl rfl))).1 2 (by decide) alternative
    ⟨Nat.lt_succ_of_le (Nat.le_succ 1),trivial⟩).1.mpr ?_
  rintro - ⟨c,hc,_,hpath⟩
  obtain rfl : c = 1 := mem_singleton.mp hc
  -- the expression of the second group has no inputs
  rcases hpath.cases_head with heq | ⟨b,⟨e,he,how,c,hc,_⟩,_⟩
  · exact absurd heq (by decide)
  · have hins : ∀ e ∈ (memo none).listGExprs,
        (memo none).pgroupDuplicateMaster e.pgroup = 1 → e.pdrgpgroup = [] := by decide
    rw [hins e he how] at hc
    cases hc

end LinkedGroups

end PgOrca.Search
