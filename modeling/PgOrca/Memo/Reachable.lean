import PgOrca.Memo.State

/-!
# What the reachability test sees

Insertion adds edges to the dependency graph that leave one class, and marking duplicates identifies
two classes.
-/

namespace PgOrca.Search

open Relation List

variable {target : Option ℕ}

namespace CMemo

variable {α : Type*} {M M' : CMemo α} {g a b h : ℕ}

theorem Valid.master_lt (hM : M.Valid) (hg : g < M.aul) : M.pgroupDuplicateMaster g < M.aul :=
  (linked_follow M.aul g).lt hM.ascending hg

theorem master_eq_of_link (hM : M.Valid) (hM' : M'.Valid)
    (hlink : M'.pgroupDuplicate = M.pgroupDuplicate) (g : ℕ) :
    M'.pgroupDuplicateMaster g = M.pgroupDuplicateMaster g := by
  refine (follow_eq_iff hM'.ascending).mpr ?_
  rw [hlink]
  exact (follow_eq_iff hM.ascending).mp rfl

/-! ## Edges -/

def inputClasses (M : CMemo α) (pdrgpgroup : List ℕ) : Set ℕ :=
  {b | ∃ c ∈ pdrgpgroup, M.fScalar c = false ∧ M.pgroupDuplicateMaster c = b}

theorem edge_iff :
    M.Edge a b ↔ ∃ e ∈ M.listGExprs, M.pgroupDuplicateMaster e.pgroup = a ∧
      b ∈ M.inputClasses e.pdrgpgroup := Iff.rfl

theorem edge_append {e : CGroupExpression α} (hM : M.Valid)
    (hlist : M'.listGExprs = M.listGExprs ++ [e])
    (hma : ∀ g, M'.pgroupDuplicateMaster g = M.pgroupDuplicateMaster g)
    (hsc : ∀ g < M.aul, M'.fScalar g = M.fScalar g) (hins : ∀ c ∈ e.pdrgpgroup, c < M.aul) :
    M'.Edge = addEdges M.Edge (M.pgroupDuplicateMaster e.pgroup) (M.inputClasses e.pdrgpgroup) := by
  have hcls {l : List ℕ} (hl : ∀ c ∈ l, c < M.aul) : M'.inputClasses l = M.inputClasses l := by
    ext b
    refine exists_congr fun c => and_congr_right fun hc => ?_
    rw [hsc c (hl c hc),hma]
  ext a b
  rw [edge_iff,addEdges,edge_iff,hlist]
  constructor
  · rintro ⟨e',he',how,hb⟩
    rw [hma] at how
    rcases mem_append.mp he' with he' | he'
    · rw [hcls (hM.inputs e' he')] at hb
      exact .inl ⟨e',he',how,hb⟩
    · rw [mem_singleton.mp he'] at how hb
      rw [hcls hins] at hb
      exact .inr ⟨how.symm,hb⟩
  · rintro (⟨e',he',how,hb⟩ | ⟨rfl,hb⟩)
    · refine ⟨e',mem_append_left _ he',(hma _).trans how,?_⟩
      rwa [hcls (hM.inputs e' he')]
    · refine ⟨e,mem_append_right _ (mem_singleton_self e),hma _,?_⟩
      rwa [hcls hins]

/-! ## Duplicate groups -/

theorem master_resolveDuplicateMaster (hM : M.Valid) (g h : ℕ) :
    (M.resolveDuplicateMaster g).pgroupDuplicateMaster h = M.pgroupDuplicateMaster h :=
  follow_compress hM.ascending g h

theorem Valid.resolveDuplicateMaster (hM : M.Valid) (g : ℕ) : (M.resolveDuplicateMaster g).Valid :=
  ⟨hM.ascending.compress g,hM.owner,hM.inputs,hM.table⟩

section

variable (hM : M.Valid) (hne : g ≠ h) (hg : g < M.aul) (hh : h < M.aul)

include hM hne hg hh

theorem Valid.addDuplicateGrp : (M.addDuplicateGrp g h).Valid := by
  refine ⟨?_,hM.owner,hM.inputs,hM.table⟩
  rw [CMemo.addDuplicateGrp]
  dsimp only
  split
  case isTrue hlt => exact hM.ascending.addLink hlt hg (by omega)
  case isFalse hle => exact hM.ascending.addLink (by omega) hh (by omega)

theorem Valid.markDuplicates : (M.markDuplicates g h).Valid :=
  ((hM.addDuplicateGrp hne hg hh).resolveDuplicateMaster g).resolveDuplicateMaster h

theorem master_markDuplicates :
    ∃ a b, (a = M.pgroupDuplicateMaster g ∧ b = M.pgroupDuplicateMaster h ∨
        a = M.pgroupDuplicateMaster h ∧ b = M.pgroupDuplicateMaster g) ∧
      ∀ x, (M.markDuplicates g h).pgroupDuplicateMaster x =
        if M.pgroupDuplicateMaster x = a then b else M.pgroupDuplicateMaster x := by
  have hadd := hM.addDuplicateGrp hne hg hh
  have hma (x : ℕ) : (M.markDuplicates g h).pgroupDuplicateMaster x =
      (M.addDuplicateGrp g h).pgroupDuplicateMaster x := by
    rw [markDuplicates,master_resolveDuplicateMaster (hadd.resolveDuplicateMaster g),
      master_resolveDuplicateMaster hadd]
  simp only [hma]
  rcases Nat.lt_or_ge h g with hlt | hle
  · obtain ⟨a,b,hab,hfo⟩ := follow_addLink hM.ascending hlt hg
      (Nat.le_add_left (M.aul + M.aul) _)
    refine ⟨a,b,hab.symm,fun x => ?_⟩
    rw [CMemo.addDuplicateGrp,pgroupDuplicateMaster]
    dsimp only
    rw [if_pos hlt]
    exact hfo x
  · obtain ⟨a,b,hab,hfo⟩ := follow_addLink hM.ascending
      (lt_of_le_of_ne hle hne) hh (Nat.le_add_left (M.aul + M.aul) _)
    refine ⟨a,b,hab,fun x => ?_⟩
    rw [CMemo.addDuplicateGrp,pgroupDuplicateMaster]
    dsimp only
    rw [if_neg hle.not_gt]
    exact hfo x

end

/-- Joining two classes closes no cycle when neither class reaches the other. `M'` may have lost
expressions that others of the joined graph stand for. -/
theorem acyclic_of_joined (hab : a = M.pgroupDuplicateMaster g ∧ b = M.pgroupDuplicateMaster h ∨
      a = M.pgroupDuplicateMaster h ∧ b = M.pgroupDuplicateMaster g)
    (hedge : M'.Edge = Relation.Map M.Edge (fun x => if x = a then b else x)
      fun x => if x = a then b else x)
    (hne : M.pgroupDuplicateMaster g ≠ M.pgroupDuplicateMaster h) :
    Acyclic M'.Edge ↔ Acyclic M.Edge ∧ ¬ (M.Reaches g h ∨ M.Reaches h g) := by
  have hab' : a ≠ b := by
    rcases hab with ⟨rfl,rfl⟩ | ⟨rfl,rfl⟩
    · exact hne
    · exact hne.symm
  rw [hedge,acyclic_map_replace hab',not_or]
  rcases hab with ⟨rfl,rfl⟩ | ⟨rfl,rfl⟩
  · rfl
  · rw [and_comm (a := ¬ ReflTransGen _ _ _)]
    rfl

theorem edge_markDuplicates (hma : ∀ x, (M.markDuplicates g h).pgroupDuplicateMaster x =
      if M.pgroupDuplicateMaster x = a then b else M.pgroupDuplicateMaster x) :
    (M.markDuplicates g h).Edge = Relation.Map M.Edge (fun x => if x = a then b else x)
      fun x => if x = a then b else x := by
  ext x y
  constructor
  · rintro ⟨e,he,rfl,c,hc,hsc,rfl⟩
    exact ⟨_,_,⟨e,he,rfl,c,hc,hsc,rfl⟩,(hma _).symm,(hma _).symm⟩
  · rintro ⟨_,_,⟨e,he,rfl,c,hc,hsc,rfl⟩,rfl,rfl⟩
    exact ⟨e,he,hma _,c,hc,hsc,hma _⟩

theorem acyclic_markDuplicates (hM : M.Valid) (hg : g < M.aul) (hh : h < M.aul)
    (hne : M.pgroupDuplicateMaster g ≠ M.pgroupDuplicateMaster h) :
    Acyclic (M.markDuplicates g h).Edge ↔
      Acyclic M.Edge ∧ ¬ (M.Reaches g h ∨ M.Reaches h g) := by
  obtain ⟨a,b,hab,hma⟩ :=
    master_markDuplicates hM (fun h => hne (congrArg M.pgroupDuplicateMaster h)) hg hh
  exact acyclic_of_joined hab (edge_markDuplicates hma) hne

theorem edge_markDuplicates_of_eq (hM : M.Valid) (hne : g ≠ h) (hg : g < M.aul) (hh : h < M.aul)
    (heq : M.pgroupDuplicateMaster g = M.pgroupDuplicateMaster h) :
    (M.markDuplicates g h).Edge = M.Edge := by
  obtain ⟨a,b,hab,hma⟩ := master_markDuplicates hM hne hg hh
  have hsame (x : ℕ) : (M.markDuplicates g h).pgroupDuplicateMaster x = M.pgroupDuplicateMaster x := by
    have hab' : a = b := by
      rcases hab with ⟨rfl,rfl⟩ | ⟨rfl,rfl⟩
      · exact heq
      · exact heq.symm
    rw [hma,hab']
    split
    case isTrue h => exact h.symm
    case isFalse => rfl
  ext x y
  simp only [Edge,hsame]
  rfl

section

variable [COperator α] {e found : CGroupExpression α} {inputs : List ℕ}

/-! ## Reachability -/

theorem follows_relationalInputs :
    Follows M.pgroupDuplicateMaster M.relationalInputs a b ↔ M.OwnEdge a b := by
  simp only [Follows,relationalInputs,OwnEdge,mem_filter,mem_flatMap,
    Bool.not_eq_true',decide_eq_true_eq]
  constructor
  · rintro ⟨c,⟨⟨e,⟨he,how,hlg⟩,hc⟩,hsc⟩,hma⟩
    exact ⟨e,he,how,hlg,c,hc,hsc,hma⟩
  · rintro ⟨e,he,how,hlg,c,hc,hsc,hma⟩
    exact ⟨c,⟨⟨e,⟨he,how,hlg⟩,hc⟩,hsc⟩,hma⟩

theorem fReachable_iff (hM : M.Valid) {start target : ℕ} (hst : start < M.aul) :
    M.fReachable start target = true ↔ M.OwnPath start target := by
  have hcl : ∀ x ∈ Finset.range M.aul, ∀ b ∈ M.relationalInputs x,
      M.pgroupDuplicateMaster b ∈ Finset.range M.aul := by
    intro x _ b hb
    obtain ⟨e,he,hbe⟩ := mem_flatMap.mp (mem_filter.mp hb).1
    exact Finset.mem_range.mpr (hM.master_lt (hM.inputs e (mem_filter.mp he).1 b hbe))
  have hse := search_iff (M.pgroupDuplicateMaster target) hcl
    (Finset.mem_range.mpr (hM.master_lt hst))
    (by rw [Finset.card_range]; exact Nat.lt_succ_self _)
  have hes : Follows M.pgroupDuplicateMaster M.relationalInputs = M.OwnEdge :=
    funext fun _ => funext fun _ => propext follows_relationalInputs
  rw [hes] at hse
  rw [fReachable,Bool.and_eq_true,hse,Bool.not_eq_true',Bool.or_eq_false_iff,and_assoc]
  rfl

/-! ## Insertion -/

theorem pgroupInsert_cases (M : CMemo α) (target : Option ℕ) (pop : α) (inputs : List ℕ)
    (fDSL : Bool) :
    (∃ found, M.find ⟨pop, inputs, target.getD M.aul, fDSL⟩ = some found ∧
      M.pgroupInsert target pop inputs fDSL = (M, found.pgroup)) ∨
    M.find ⟨pop, inputs, target.getD M.aul, fDSL⟩ = none ∧
      (M.pgroupInsert target pop inputs fDSL).2 = target.getD M.aul ∧
      (M.pgroupInsert target pop inputs fDSL).1.listGExprs =
        M.listGExprs ++ [⟨pop, inputs, target.getD M.aul, fDSL⟩] ∧
      (M.pgroupInsert target pop inputs fDSL).1.pgroupDuplicate = M.pgroupDuplicate ∧
      (M.pgroupInsert target pop inputs fDSL).1.aul = M.aul + (if target.isNone then 1 else 0) ∧
      (∀ g < M.aul, (M.pgroupInsert target pop inputs fDSL).1.fScalar g = M.fScalar g) ∧
      (M.pgroupInsert target pop inputs fDSL).1.sht =
        (M.bucketIndex ⟨pop, inputs, target.getD M.aul, fDSL⟩,
          ⟨pop, inputs, target.getD M.aul, fDSL⟩) :: M.sht := by
  rw [pgroupInsert]
  cases hfind : M.find ⟨pop,inputs,target.getD M.aul,fDSL⟩ with
  | some found => exact .inl ⟨found,rfl,rfl⟩
  | none =>
    right
    cases target with
    | some t => exact ⟨rfl,rfl,rfl,rfl,rfl,fun _ _ => rfl,rfl⟩
    | none => exact ⟨rfl,rfl,rfl,rfl,rfl,fun g hg => Function.update_of_ne hg.ne _ _,rfl⟩

theorem mem_sht_of_find (h : M.find e = some found) : found ∈ M.sht.map Prod.snd := by
  obtain ⟨entry,hen,rfl⟩ := Option.map_eq_some_iff.mp h
  exact mem_map_of_mem (List.mem_of_find?_eq_some hen)

theorem mem_of_find (hM : M.Valid) (h : M.find e = some found) :
    found ∈ M.listGExprs ∧ M.fMatches e found = true := by
  refine ⟨hM.table.subset (mem_sht_of_find h),?_⟩
  obtain ⟨entry,hen,rfl⟩ := Option.map_eq_some_iff.mp h
  have hm := List.find?_some hen
  rw [decide_eq_true_eq] at hm
  exact hm.2

theorem Valid.pgroupInsert (hM : M.Valid) (ht : ∀ t ∈ target, t < M.aul) (pop : α)
    (hins : ∀ c ∈ inputs, c < M.aul) (fDSL : Bool) :
    (M.pgroupInsert target pop inputs fDSL).1.Valid ∧
      M.aul ≤ (M.pgroupInsert target pop inputs fDSL).1.aul ∧
      (M.pgroupInsert target pop inputs fDSL).2 < (M.pgroupInsert target pop inputs fDSL).1.aul := by
  rcases M.pgroupInsert_cases target pop inputs fDSL with
    ⟨found,hfind,heq⟩ | ⟨_,hgrp,hlist,hlink,haul,_,hsht⟩
  · rw [heq]
    exact ⟨hM,le_rfl,hM.owner found (mem_of_find hM hfind).1⟩
  · have hle : M.aul ≤ (M.pgroupInsert target pop inputs fDSL).1.aul := by rw [haul]; omega
    have hlt : target.getD M.aul < (M.pgroupInsert target pop inputs fDSL).1.aul := by
      rw [haul]
      cases target with
      | some t => exact ht t rfl
      | none => exact Nat.lt_succ_self _
    refine ⟨⟨?_,?_,?_,?_⟩,hle,hgrp ▸ hlt⟩
    · rw [hlink]
      exact fun g h hgh => ⟨(hM.ascending g h hgh).1,(hM.ascending g h hgh).2.trans_le hle⟩
    · rw [hlist]
      intro e he
      rcases mem_append.mp he with he | he
      · exact (hM.owner e he).trans_le hle
      · rw [mem_singleton.mp he]
        exact hlt
    · rw [hlist]
      intro e he c hc
      rcases mem_append.mp he with he | he
      · exact (hM.inputs e he c hc).trans_le hle
      · rw [mem_singleton.mp he] at hc
        exact (hins c hc).trans_le hle
    · rw [hlist,hsht,map_cons]
      exact ((subperm_cons _).mpr hM.table).trans (perm_append_singleton _ _).symm.subperm

theorem edge_pgroupInsert (hM : M.Valid) (ht : ∀ t ∈ target, t < M.aul) (pop : α)
    (hins : ∀ c ∈ inputs, c < M.aul) (fDSL : Bool)
    (hfind : M.find ⟨pop, inputs, target.getD M.aul, fDSL⟩ = none) :
    (M.pgroupInsert target pop inputs fDSL).1.Edge =
      addEdges M.Edge (M.pgroupDuplicateMaster (target.getD M.aul)) (M.inputClasses inputs) := by
  rcases M.pgroupInsert_cases target pop inputs fDSL with ⟨found,hfd,_⟩ | ⟨_,_,hlist,hlink,_,hsc,_⟩
  · rw [hfind] at hfd
    cases hfd
  · exact edge_append hM hlist
      (master_eq_of_link hM (hM.pgroupInsert ht pop hins fDSL).1 hlink) hsc hins

theorem acyclic_pgroupInsert_none (hM : M.Valid) (hac : Acyclic M.Edge) (pop : α)
    (hins : ∀ c ∈ inputs, c < M.aul) (fDSL : Bool) :
    Acyclic (M.pgroupInsert none pop inputs fDSL).1.Edge := by
  rcases M.pgroupInsert_cases none pop inputs fDSL with ⟨found,_,heq⟩ | ⟨hfind,_⟩
  · rwa [heq]
  · rw [edge_pgroupInsert hM (by nofun) pop hins fDSL hfind,acyclic_addEdges]
    refine ⟨hac,?_⟩
    have hnew : M.pgroupDuplicateMaster M.aul = M.aul := by
      refine follow_of_none hM.ascending ?_
      cases hlink : M.pgroupDuplicate M.aul with
      | none => rfl
      | some h =>
        have := hM.ascending _ h hlink
        omega
    rintro b ⟨c,hc,_,rfl⟩ hpath
    rw [Option.getD_none,hnew] at hpath
    have heq := eq_of_reflTransGen_of_no_edge (fun z hz => ?_) hpath
    · exact absurd heq (hM.master_lt (hins c hc)).ne
    · obtain ⟨e,he,_,c',hc',_,hma⟩ := hz
      exact absurd hma (hM.master_lt (hM.inputs e he c' hc')).ne

end

end CMemo

end PgOrca.Search
