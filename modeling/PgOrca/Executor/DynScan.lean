import Mathlib

/-!
# Dynamic partition elimination

A partition selector and a dynamic scan share a set of approved partitions. The partition key has
one column with values in `κ`, as have the bounds, infinite ones included. An index -1 is `none`.
-/

namespace PgOrca.Executor

open Finset

variable {κ : Type} [LinearOrder κ]

/-- What PostgreSQL provides: the hash of a key, and the offset of the greatest bound that is at
most a value. -/
structure PartitionSupport (κ : Type) [LinearOrder κ] where
  rowHash : Option κ → ℕ
  bsearch : List κ → κ → ℤ
  neg_one_le : ∀ datums v, -1 ≤ bsearch datums v
  bsearch_lt : ∀ datums v, bsearch datums v < datums.length
  le_bsearch_iff : ∀ {datums v}, datums.Pairwise (· < ·) → ∀ {j : ℕ} {d}, datums[j]? = some d →
    ((j : ℤ) ≤ bsearch datums v ↔ d ≤ v)

inductive PartitionStrategy
  | hash
  | list
  | range

structure PartitionBoundInfo (κ : Type) [LinearOrder κ] where
  strategy : PartitionStrategy
  datums : List κ
  sorted : datums.Pairwise (· < ·)
  indexes : List (Option ℕ)
  nullIndex : Option ℕ
  defaultIndex : Option ℕ

structure DynScanPlan (κ : Type) [LinearOrder κ] where
  support : PartitionSupport κ
  boundinfo : PartitionBoundInfo κ
  nparts : ℕ
  /-- The partitions that the filter of the scan leaves, if it is used. -/
  staticParts : Option (Finset ℕ)

structure DynScanSharedState where
  approvedPartitions : Finset ℕ
  finalized : Bool

structure DTSState where
  scanStarted : Bool
  approved : Finset ℕ
  curPart : Option ℕ

/-- The states of the two nodes, the keys of the current pass of the selector, the partitions
opened in the current pass of the scan, and whether that pass has returned NULL. -/
structure DynScan (κ : Type) where
  shared : DynScanSharedState
  scan : DTSState
  keys : List (Option κ)
  visited : List ℕ
  ended : Bool

/-- A call of a node. The child of the selector gives a key or its end; the partition that the
scan has open is exhausted or not. -/
inductive Event (κ : Type)
  | psExec (slot : Option (Option κ))
  | psRescan
  | dtsExec (exhausted : Bool)
  | dtsRescan

abbrev After (prev : Option ℕ) (i : ℕ) : Prop := ∀ c ∈ prev, c < i

def bmsNextMember (s : Finset ℕ) (prev : Option ℕ) : Option ℕ :=
  if h : (s.filter (After prev)).Nonempty then some (min' _ h) else none

namespace DynScanPlan

variable (plan : DynScanPlan κ)

def findPartitionForValue (value : Option κ) : Option ℕ :=
  let bi := plan.boundinfo
  match bi.strategy, value with
  | .hash, value => (bi.indexes[plan.support.rowHash value % bi.indexes.length]?).join
  | .list, none => bi.nullIndex
  | .list, some v =>
    let offset := plan.support.bsearch bi.datums v
    if 0 ≤ offset ∧ bi.datums[offset.toNat]? = some v then
      (bi.indexes[offset.toNat]?).join
    else none
  | .range, none => none
  | .range, some v => (bi.indexes[(plan.support.bsearch bi.datums v + 1).toNat]?).join

/-- The partition may hold rows with the key. -/
def Accepts (p : ℕ) (value : Option κ) : Prop :=
  let bi := plan.boundinfo
  bi.defaultIndex = some p ∨
    match bi.strategy, value with
    | .hash, value => bi.indexes[plan.support.rowHash value % bi.indexes.length]? = some (some p)
    | .list, none => bi.nullIndex = some p
    | .list, some v => ∃ j : ℕ, bi.datums[j]? = some v ∧ bi.indexes[j]? = some (some p)
    | .range, none => False
    | .range, some v => ∃ j ≤ bi.datums.length,
        (∀ (i : ℕ) d, j = i + 1 → bi.datums[i]? = some d → d ≤ v) ∧
        (∀ d, bi.datums[j]? = some d → v < d) ∧ bi.indexes[j]? = some (some p)

variable (s : DynScan κ)

def psExec : Option (Option κ) → DynScan κ
  | none => { s with shared.finalized := true }
  | some value =>
    { s with
      shared.approvedPartitions := s.shared.approvedPartitions ∪
        ((plan.findPartitionForValue value).filter (· < plan.nparts)).toFinset ∪
        plan.boundinfo.defaultIndex.toFinset
      keys := value :: s.keys }

def psRescan : DynScan κ := { s with shared := ⟨∅, false⟩, keys := [] }

def approvedAtStart (shared : DynScanSharedState) : Finset ℕ :=
  if shared.finalized then
    plan.staticParts.elim shared.approvedPartitions (shared.approvedPartitions ∩ ·)
  else plan.staticParts.getD (range plan.nparts)

def dtsStart : DynScan κ :=
  if s.scan.scanStarted then s
  else { s with scan := ⟨true, plan.approvedAtStart s.shared, none⟩ }

/-- One round of the loop of `dts_exec`. The executor does not call the scan again after NULL. -/
def dtsExec (exhausted : Bool) : DynScan κ :=
  let s := plan.dtsStart s
  if s.ended ∨ s.scan.curPart.isSome ∧ ¬ exhausted then s
  else
    match bmsNextMember s.scan.approved s.scan.curPart with
    | none => { s with ended := true }
    | some p =>
      { s with
        scan.curPart := some p
        visited := if p < plan.nparts then s.visited ++ [p] else s.visited }

def dtsRescan : DynScan κ :=
  { s with scan := ⟨false, ∅, none⟩, visited := [], ended := false }

def step : Event κ → DynScan κ
  | .psExec slot => plan.psExec s slot
  | .psRescan => psRescan s
  | .dtsExec exhausted => plan.dtsExec s exhausted
  | .dtsRescan => dtsRescan s

def run (events : List (Event κ)) : DynScan κ :=
  events.foldl plan.step ⟨⟨∅, false⟩, ⟨false, ∅, none⟩, [], [], false⟩

end DynScanPlan

/-! ## Routing -/

namespace PartitionSupport

variable (support : PartitionSupport κ) {datums : List κ} (hsorted : datums.Pairwise (· < ·))
  {v : κ} {j : ℕ}
include hsorted

theorem bsearch_of_getElem (hj : datums[j]? = some v) : support.bsearch datums v = j := by
  have hle := (support.le_bsearch_iff hsorted hj).mpr le_rfl
  obtain ⟨i,hi⟩ : ∃ i : ℕ, support.bsearch datums v = i :=
    ⟨_,(Int.toNat_of_nonneg (by omega)).symm⟩
  have hlt := support.bsearch_lt datums v
  have hd : datums[i]? = some _ := List.getElem?_eq_getElem (by omega)
  have hdv := (support.le_bsearch_iff hsorted hd).mp hi.ge
  obtain ⟨hj',rfl⟩ := List.getElem?_eq_some_iff.mp hj
  by_contra hne
  exact absurd (List.pairwise_iff_getElem.mp hsorted j i hj' (by omega) (by omega)) hdv.not_gt

theorem bsearch_of_between (hj : j ≤ datums.length)
    (hlo : ∀ (i : ℕ) d, j = i + 1 → datums[i]? = some d → d ≤ v)
    (hup : ∀ d, datums[j]? = some d → v < d) : support.bsearch datums v + 1 = j := by
  have hlow := support.neg_one_le datums v
  have hhigh := support.bsearch_lt datums v
  rcases lt_trichotomy (support.bsearch datums v + 1) j with hlt | heq | hgt
  · obtain ⟨i,rfl⟩ : ∃ i, j = i + 1 := ⟨j - 1,by omega⟩
    have hd : datums[i]? = some _ := List.getElem?_eq_getElem (by omega)
    have := (support.le_bsearch_iff hsorted hd).mpr (hlo i _ rfl hd)
    omega
  · exact heq
  · have hd : datums[j]? = some _ := List.getElem?_eq_getElem (by omega)
    exact absurd ((support.le_bsearch_iff hsorted hd).mp (by omega)) (hup _ hd).not_ge

end PartitionSupport

namespace DynScanPlan

variable {plan : DynScanPlan κ} {s : DynScan κ} {p : ℕ} {value : Option κ}

theorem Accepts.find (h : plan.Accepts p value) :
    plan.boundinfo.defaultIndex = some p ∨ plan.findPartitionForValue value = some p := by
  refine h.imp_right fun h => ?_
  have hsorted := plan.boundinfo.sorted
  cases hsy : plan.boundinfo.strategy with
  | hash =>
    simp only [hsy] at h
    simp [findPartitionForValue,hsy,h]
  | list =>
    cases value with
    | none => simpa [findPartitionForValue,hsy] using h
    | some v =>
      simp only [hsy] at h
      obtain ⟨j,hd,hindex⟩ := h
      have hoff := plan.support.bsearch_of_getElem hsorted hd
      simp [findPartitionForValue,hsy,hoff,hd,hindex]
  | range =>
    cases value with
    | none => simp [hsy] at h
    | some v =>
      simp only [hsy] at h
      obtain ⟨j,hj,hlo,hup,hindex⟩ := h
      have hoff := plan.support.bsearch_of_between hsorted hj hlo hup
      simp [findPartitionForValue,hsy,hoff,hindex]

/-! ## Passes of the two nodes -/

theorem bmsNextMember_cases (parts : Finset ℕ) (prev : Option ℕ) :
    (bmsNextMember parts prev = none ∧ ∀ i ∈ parts, ¬ After prev i) ∨
      ∃ p ∈ parts, bmsNextMember parts prev = some p ∧ After prev p ∧
        ∀ i ∈ parts, After prev i → p ≤ i := by
  rw [bmsNextMember]
  split_ifs with h
  · have hmem := mem_filter.mp (min'_mem _ h)
    exact .inr ⟨_,hmem.1,rfl,hmem.2,fun i hi haft => min'_le _ _ (mem_filter.mpr ⟨hi,haft⟩)⟩
  · exact .inl ⟨rfl,fun i hi haft => h ⟨i,mem_filter.mpr ⟨hi,haft⟩⟩⟩

/-- What the current passes of the two nodes have done so far. -/
structure Inv (plan : DynScanPlan κ) (s : DynScan κ) : Prop where
  approved : ∀ value ∈ s.keys, ∀ p < plan.nparts, plan.Accepts p value →
    p ∈ s.shared.approvedPartitions
  fresh : s.scan.scanStarted = false → s.visited = [] ∧ s.ended = false
  ordered : s.visited.Pairwise (· < ·)
  reached : ∀ q ∈ s.visited, ¬ After s.scan.curPart q
  visits : ∀ p ∈ s.scan.approved, p < plan.nparts → ¬ After s.scan.curPart p → p ∈ s.visited
  all : s.ended = true → ∀ p ∈ s.scan.approved, ¬ After s.scan.curPart p

theorem Inv.psExec (h : Inv plan s) (slot : Option (Option κ)) : Inv plan (plan.psExec s slot) := by
  cases slot with
  | none => exact ⟨h.approved,h.fresh,h.ordered,h.reached,h.visits,h.all⟩
  | some value =>
    refine ⟨?_,h.fresh,h.ordered,h.reached,h.visits,h.all⟩
    intro value' hv' p hp hac
    rcases List.mem_cons.mp hv' with rfl | hkeys
    · rcases hac.find with hdef | hfind
      · simp [DynScanPlan.psExec,hdef]
      · simp [DynScanPlan.psExec,hfind,hp]
    · simp [DynScanPlan.psExec,h.approved value' hkeys p hp hac]

theorem dtsStart_scanStarted (plan : DynScanPlan κ) (s : DynScan κ) :
    (plan.dtsStart s).scan.scanStarted = true := by
  unfold dtsStart
  split
  · assumption
  · rfl

/-- A round of the scan goes on reading its partition, ends, or opens the next partition. -/
theorem dtsExec_cases (plan : DynScanPlan κ) (s : DynScan κ) (exhausted : Bool) :
    let s' := plan.dtsStart s
    ((s'.ended = true ∨ exhausted = false) ∧ plan.dtsExec s exhausted = s') ∨
    ((∀ i ∈ s'.scan.approved, ¬ After s'.scan.curPart i) ∧
      plan.dtsExec s exhausted = { s' with ended := true }) ∨
    ∃ p ∈ s'.scan.approved, s'.ended = false ∧ After s'.scan.curPart p ∧
      (∀ i ∈ s'.scan.approved, After s'.scan.curPart i → p ≤ i) ∧
      plan.dtsExec s exhausted = { s' with
        scan.curPart := some p
        visited := if p < plan.nparts then s'.visited ++ [p] else s'.visited } := by
  intro s'
  by_cases hstay : s'.ended ∨ s'.scan.curPart.isSome ∧ ¬ exhausted
  · exact .inl ⟨hstay.imp_right fun h => by simpa using h.2,if_pos hstay⟩
  rcases bmsNextMember_cases s'.scan.approved s'.scan.curPart with
    ⟨hnext,hall⟩ | ⟨p,hp,hnext,haft,hle⟩
  · exact .inr (.inl ⟨hall,by simp only [dtsExec,s',hnext,if_neg hstay]⟩)
  · have hen : s'.ended = false := by simpa using (not_or.mp hstay).1
    exact .inr (.inr ⟨p,hp,hen,haft,hle,by simp only [dtsExec,s',hnext,if_neg hstay]⟩)

theorem Inv.dtsStart (h : Inv plan s) : Inv plan (plan.dtsStart s) := by
  unfold DynScanPlan.dtsStart
  split
  · exact h
  · rename_i hst
    obtain ⟨hvi,hen⟩ := h.fresh (by simpa using hst)
    exact ⟨h.approved,by simp,by simp [hvi],by simp [hvi],by simp,by simp [hen]⟩

theorem Inv.dtsExec (h : Inv plan s) (exhausted : Bool) : Inv plan (plan.dtsExec s exhausted) := by
  have hst := h.dtsStart
  have hstd := plan.dtsStart_scanStarted s
  rcases plan.dtsExec_cases s exhausted with
    ⟨-,heq⟩ | ⟨hall,heq⟩ | ⟨p,hp,hen,haft,hlst,heq⟩ <;> rw [heq]
  · exact hst
  · exact ⟨hst.approved,by simp [hstd],hst.ordered,hst.reached,hst.visits,fun _ => hall⟩
  · have hlt : ∀ q ∈ (plan.dtsStart s).visited, q < p := by
      intro q hq
      obtain ⟨c,hc,hqc⟩ := not_forall₂.mp (hst.reached q hq)
      exact (not_lt.mp hqc).trans_lt (haft c hc)
    refine ⟨hst.approved,by simp [hstd],?_,?_,?_,by simp [hen]⟩
    · dsimp only
      split_ifs
      · simpa [List.pairwise_append,hst.ordered] using hlt
      · exact hst.ordered
    · intro q hq
      suffices hle : q ≤ p by simpa using hle
      dsimp only at hq
      split_ifs at hq
      · rcases List.mem_append.mp hq with hq | hq
        · exact (hlt q hq).le
        · exact (List.mem_singleton.mp hq).le
      · exact (hlt q hq).le
    · intro q hq hnpa hrea
      have hle : q ≤ p := by simpa using hrea
      by_cases hqaf : After (plan.dtsStart s).scan.curPart q
      · obtain rfl := hle.antisymm (hlst q hq hqaf)
        simp [hnpa]
      · have hvi := hst.visits q hq hnpa hqaf
        dsimp only
        split_ifs <;> simp [hvi]

theorem Inv.step (h : Inv plan s) (event : Event κ) : Inv plan (plan.step s event) := by
  cases event with
  | psExec slot => exact h.psExec slot
  | psRescan => exact ⟨by simp [DynScanPlan.step,psRescan],h.fresh,h.ordered,h.reached,
      h.visits,h.all⟩
  | dtsExec exhausted => exact h.dtsExec exhausted
  | dtsRescan =>
    refine ⟨h.approved,?_,?_,?_,?_,?_⟩ <;> simp [DynScanPlan.step,dtsRescan]

theorem inv_run (plan : DynScanPlan κ) (events : List (Event κ)) : Inv plan (plan.run events) := by
  induction events using List.reverseRecOn with
  | nil => constructor <;> simp [run]
  | append_singleton events event ih =>
    rw [run,List.foldl_append]
    exact ih.step event

/-- A pass of the scan over fixed partitions that has exhausted a number of them. -/
structure Pass (parts : Finset ℕ) (rounds : ℕ) (s : DynScan κ) : Prop where
  approved : s.scan.approved = parts
  progress : s.ended = true ∨ rounds ≤ #{p ∈ parts | ¬ After s.scan.curPart p}

theorem Pass.dtsExec {parts : Finset ℕ} {rounds : ℕ} (h : Pass parts rounds (plan.dtsStart s))
    (exhausted : Bool) : Pass parts (rounds + [exhausted].count true) (plan.dtsExec s exhausted) := by
  rcases plan.dtsExec_cases s exhausted with
    ⟨hstay,heq⟩ | ⟨-,heq⟩ | ⟨p,hp,hen,haft,-,heq⟩ <;> rw [heq]
  · exact ⟨h.approved,hstay.elim .inl fun hstay => by simpa [hstay] using h.progress⟩
  · exact ⟨h.approved,.inl rfl⟩
  · refine ⟨h.approved,.inr ?_⟩
    have hrn := h.progress.resolve_left (by simp [hen])
    have hcnt : [exhausted].count true ≤ 1 := List.count_le_length
    refine (Nat.add_le_add hrn hcnt).trans ?_
    refine card_lt_card ⟨fun q hq => ?_,fun hsub => ?_⟩
    · obtain ⟨hq,hrea⟩ := mem_filter.mp hq
      obtain ⟨c,hc,hqc⟩ := not_forall₂.mp hrea
      have := haft c hc
      exact mem_filter.mpr ⟨hq,by simp; omega⟩
    · have hmem := hsub (mem_filter.mpr ⟨h.approved ▸ hp,by simp⟩)
      exact (mem_filter.mp hmem).2 haft

theorem dtsStart_dtsExec (plan : DynScanPlan κ) (s : DynScan κ) (exhausted : Bool) :
    plan.dtsStart (plan.dtsExec s exhausted) = plan.dtsExec s exhausted := by
  refine if_pos ?_
  rcases plan.dtsExec_cases s exhausted with ⟨-,heq⟩ | ⟨-,heq⟩ | ⟨p,-,-,-,-,heq⟩ <;>
    rw [heq] <;> exact plan.dtsStart_scanStarted s

theorem pass_run {events : List (Event κ)} (hst : (plan.run events).scan.scanStarted = false)
    (fetches : List Bool) :
    Pass (plan.approvedAtStart (plan.run events).shared) (fetches.count true)
      (plan.dtsStart (plan.run (events ++ fetches.map .dtsExec))) := by
  induction fetches using List.reverseRecOn with
  | nil => constructor <;> simp [dtsStart,hst]
  | append_singleton fetches exhausted ih =>
    have hrun : plan.run (events ++ (fetches ++ [exhausted]).map .dtsExec) =
        plan.dtsExec (plan.run (events ++ fetches.map .dtsExec)) exhausted := by
      simp [run,step]
    rw [hrun,dtsStart_dtsExec,List.count_append]
    exact ih.dtsExec exhausted

/-- A pass of the scan never opens a partition twice. It ends once enough partitions are
exhausted, and has then opened each partition that its own filter leaves and that may hold a key
of the selector's pass. -/
theorem scan_visits_matching (plan : DynScanPlan κ) (events : List (Event κ))
    (hstart : (plan.run events).scan.scanStarted = false) (fetches : List Bool) :
    let t := plan.run (events ++ fetches.map .dtsExec)
    t.visited.Pairwise (· < ·) ∧
      (#(plan.approvedAtStart (plan.run events).shared) < fetches.count true → t.ended = true) ∧
      (t.ended = true → ∀ value ∈ (plan.run events).keys, ∀ p < plan.nparts,
        plan.Accepts p value → (∀ parts ∈ plan.staticParts, p ∈ parts) → p ∈ t.visited) := by
  intro t
  have hinv := plan.inv_run (events ++ fetches.map .dtsExec)
  have hpass := pass_run hstart fetches
  have hen : (plan.dtsStart t).ended = t.ended := by
    unfold dtsStart
    split <;> rfl
  refine ⟨hinv.ordered,fun hcnt => ?_,fun hend value hv p hp hac hsta => ?_⟩
  · rw [← hen]
    exact hpass.progress.resolve_right fun hle => hcnt.not_ge (hle.trans (card_filter_le _ _))
  · have hst : t.scan.scanStarted = true := by
      by_contra hnot
      simp [(hinv.fresh (by simpa using hnot)).2,t] at hend
    have hmem : p ∈ t.scan.approved := by
      have happ := (plan.inv_run events).approved value hv p hp hac
      have hps := hpass.approved
      rw [dtsStart,if_pos hst] at hps
      rw [hps,approvedAtStart]
      cases hcase : plan.staticParts with
      | none => split <;> simp [happ,hp]
      | some parts => split <;> simp [happ,hsta parts hcase]
    exact hinv.visits p hmem hp (hinv.all hend p hmem)

end DynScanPlan

namespace TwoParts

def support : PartitionSupport ℕ where
  rowHash value := value.getD 0
  bsearch datums v := datums.findIdx (v < ·) - 1
  neg_one_le datums v := by omega
  bsearch_lt datums v := by
    have : datums.findIdx (v < ·) ≤ datums.length := List.findIdx_le_length
    omega
  le_bsearch_iff {datums v} hsorted {j d} hd := by
    obtain ⟨hj, rfl⟩ := List.getElem?_eq_some_iff.mp hd
    constructor
    · intro hle
      have hlt : j < datums.findIdx (v < ·) := by omega
      simpa using List.not_of_lt_findIdx hlt
    · intro hle
      by_contra hlt
      have hidx : datums.findIdx (v < ·) < datums.length := by omega
      have hmono := (hsorted.imp le_of_lt).rel_get_of_le (a := ⟨_, hidx⟩) (b := ⟨j, hj⟩)
        (Fin.mk_le_mk.mpr (by omega))
      exact absurd (of_decide_eq_true (List.findIdx_getElem (w := hidx))) (hmono.trans hle).not_gt

def plan (staticParts : Option (Finset ℕ)) : DynScanPlan ℕ :=
  ⟨support, ⟨.list, [0, 1], by decide, [some 0, some 1], none, none⟩, 2, staticParts⟩

def selector : List (Event ℕ) := [.psExec (some (some 1)), .psExec none]

theorem visits_one : 1 ∈ ((plan none).run (selector ++ [true, true].map .dtsExec)).visited := by
  have h := (plan none).scan_visits_matching selector rfl [true,true]
  exact h.2.2 (h.2.1 (by decide)) (some 1) (by decide) 1 (by decide)
    (.inr ⟨1,rfl,rfl⟩) (by simp [plan])

/-- Static pruning drops the partition of a matching row that the filter of the scan rejects. -/
theorem static_skips_one :
    let t := (plan (some {0})).run (selector ++ [true].map .dtsExec)
    (plan (some {0})).Accepts 1 (some 1) ∧ some 1 ∈ ((plan (some {0})).run selector).keys ∧
      t.ended = true ∧ t.visited = [] :=
  ⟨.inr ⟨1,rfl,rfl⟩,by decide,by decide,by decide⟩

end TwoParts

end PgOrca.Executor
