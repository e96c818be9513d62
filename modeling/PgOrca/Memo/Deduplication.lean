import PgOrca.Memo.Reachable

/-!
# Expressions that the memo stores twice

The hash of an expression folds its inputs in their order, but operators whose inputs may be
permuted match up to a permutation, and an insertion looks into one bucket only.
-/

namespace PgOrca.Search

open List

/-! ## Hashing -/

def combineHashes (hash1 hash2 : UInt32) : UInt32 :=
  let h := (hash1.toUInt64 <<< 32) ||| hash2.toUInt64
  let h := (h ^^^ 0xcbf29ce484222325) * 0x100000001b3
  (h ^^^ (h >>> 32)).toUInt32

/-- `HashByteArray` of the four bytes of a number, the lowest one first. -/
def hashUlong (id : UInt32) : UInt32 :=
  let bytes := [id, id >>> 8, id >>> 16, id >>> 24].map fun word => (word &&& 0xff).toUInt64
  let h := bytes.foldl (fun h byte => (h ^^^ byte) * 0x100000001b3) (0xcbf29ce484222325 ^^^ 4)
  (h ^^^ (h >>> 32)).toUInt32

/-- `CGroupExpression::HashValue`, from the hash of the operator and the numbers of the groups. -/
def hashValue (popHash : UInt32) (pdrgpgroup : List ℕ) : UInt32 :=
  pdrgpgroup.foldl (fun ulHash id => combineHashes ulHash (hashUlong id.toUInt32)) popHash

variable {α : Type*} [COperator α]

open COperator

/-- The operators as the hash table of the memo sees them. Matching is an equality of operators that
keeps their hash. -/
structure Hashed (popHash : α → UInt32) : Prop where
  getBucketIndex_eq : ∀ pop pdrgpgroup,
    getBucketIndex pop pdrgpgroup = (hashValue (popHash pop) pdrgpgroup).toNat % 50000
  popHash_eq : ∀ a b : α, fMatches a b = true → popHash a = popHash b
  refl : ∀ a : α, fMatches a a = true
  symm : ∀ a b : α, fMatches a b = true → fMatches b a = true
  trans : ∀ a b c : α, fMatches a b = true → fMatches b c = true → fMatches a c = true
  fInputOrderSensitive_eq : ∀ a b : α, fMatches a b = true →
    fInputOrderSensitive a = fInputOrderSensitive b

/-! ## Sequences of insertions -/

structure Insertion (α : Type*) where
  pgroupTarget : Option ℕ
  pop : α
  pdrgpgroup : List ℕ
  fDSLProvenance : Bool

/-- Operators and inputs match, whatever groups the expressions are in. -/
def SameInputs (pop : α) (inputs : List ℕ) (pop' : α) (inputs' : List ℕ) : Prop :=
  fMatches pop pop' = true ∧
    (inputs = inputs' ∨ fInputOrderSensitive pop = false ∧ inputs.Perm inputs')

namespace CMemo

variable {M : CMemo α}

def insert (M : CMemo α) (call : Insertion α) : CMemo α × ℕ :=
  M.pgroupInsert call.pgroupTarget call.pop call.pdrgpgroup call.fDSLProvenance

def insertAll (M : CMemo α) (calls : List (Insertion α)) : CMemo α :=
  calls.foldl (fun M call => (M.insert call).1) M

def requested (M : CMemo α) (call : Insertion α) : CGroupExpression α :=
  ⟨call.pop, call.pdrgpgroup, call.pgroupTarget.getD M.aul, call.fDSLProvenance⟩

/-- No two stored expressions match, and a call for an expression that matches a stored one adds
nothing and returns the group of the stored one. -/
structure StoresOnce (M : CMemo α) (calls : List (Insertion α)) : Prop where
  distinct : (M.insertAll calls).sht.Pairwise fun x y =>
    ¬ (M.insertAll calls).fMatches x.2 y.2 = true
  found : ∀ before call after, calls = before ++ call :: after →
    ∀ entry ∈ (M.insertAll before).sht,
      (M.insertAll before).fMatches ((M.insertAll before).requested call) entry.2 = true →
      (M.insertAll before).insert call = (M.insertAll before, entry.2.pgroup)

theorem insertAll_append_singleton (M : CMemo α) (calls : List (Insertion α)) (call : Insertion α) :
    M.insertAll (calls ++ [call]) = ((M.insertAll calls).insert call).1 := by
  simp [insertAll]

/-! ## Matching without duplicate groups -/

omit [COperator α] in
theorem fMatchGroups_iff (hlink : ∀ g, M.pgroupDuplicate g = none) {fst snd : List ℕ}
    (hlen : fst.length = snd.length) : M.fMatchGroups fst snd = true ↔ fst = snd := by
  induction fst generalizing snd with
  | nil => simp [fMatchGroups,length_eq_zero_iff.mp hlen.symm]
  | cons g fst ih =>
    cases snd with
    | nil => simp at hlen
    | cons h snd =>
      have hcons : M.fMatchGroups (g :: fst) (h :: snd) =
          (decide (g = h) && M.fMatchGroups fst snd) := by
        simp [fMatchGroups,fDuplicateGroups,hlink]
      simp [hcons,ih (Nat.succ.inj hlen)]

section

variable (hlink : ∀ g, M.pgroupDuplicate g = none)

include hlink

theorem bucketIndex_eq (e : CGroupExpression α) :
    M.bucketIndex e = getBucketIndex e.pop e.pdrgpgroup := by
  have hid : M.hashId = id := by
    funext g
    simp [hashId,hlink]
  rw [bucketIndex,hid,map_id]

theorem fMatches_iff (e e' : CGroupExpression α) :
    M.fMatches e e' = true ↔ SameInputs e.pop e.pdrgpgroup e'.pop e'.pdrgpgroup := by
  simp only [fMatches,SameInputs,Bool.and_eq_true,decide_eq_true_eq]
  constructor
  · intro ⟨⟨hlen,hpop⟩,hins⟩
    refine ⟨hpop,?_⟩
    split at hins
    · exact .inl ((fMatchGroups_iff hlink hlen).mp hins)
    next hcond =>
      have heq := (fMatchGroups_iff hlink (by simp [hlen])).mp hins
      have hperm := (mergeSort_perm e.pdrgpgroup _).symm.trans
        (heq ▸ mergeSort_perm e'.pdrgpgroup _)
      simp only [Bool.or_eq_true,not_or,Bool.not_eq_true] at hcond
      exact .inr ⟨hcond.2,hperm⟩
  · intro ⟨hpop,hins⟩
    have hperm : e.pdrgpgroup.Perm e'.pdrgpgroup :=
      hins.elim (fun heq => heq ▸ .refl _) And.right
    refine ⟨⟨hperm.length_eq,hpop⟩,?_⟩
    split
    next hcond =>
      apply (fMatchGroups_iff hlink hperm.length_eq).mpr
      -- one input alone has no other order
      rcases hins with heq | ⟨hse,-⟩
      · exact heq
      · simp only [hse,Bool.or_false,decide_eq_true_eq] at hcond
        rcases hin : e.pdrgpgroup with _ | ⟨g,_ | ⟨g',rest⟩⟩
        · exact (hin ▸ hperm).nil_eq
        · exact singleton_perm.mp (hin ▸ hperm)
        · simp [hin] at hcond
    · apply (fMatchGroups_iff hlink (by simp [hperm.length_eq])).mpr
      have hso : ∀ inputs : List ℕ, (inputs.mergeSort fun a b => a ≤ b).Pairwise (· ≤ ·) :=
        pairwise_mergeSort' (· ≤ ·)
      apply List.Perm.eq_of_pairwise' (hso _) (hso _)
      exact (mergeSort_perm _ _).trans (hperm.trans (mergeSort_perm _ _).symm)

theorem insert_cases (call : Insertion α) :
    (∃ entry ∈ M.sht, (entry.1 = getBucketIndex call.pop call.pdrgpgroup ∧
      SameInputs call.pop call.pdrgpgroup entry.2.pop entry.2.pdrgpgroup) ∧
      M.insert call = (M, entry.2.pgroup)) ∨
    (∀ entry ∈ M.sht, ¬ (entry.1 = getBucketIndex call.pop call.pdrgpgroup ∧
      SameInputs call.pop call.pdrgpgroup entry.2.pop entry.2.pdrgpgroup)) ∧
      (∀ g, (M.insert call).1.pgroupDuplicate g = none) ∧
      (M.insert call).1.sht =
        (getBucketIndex call.pop call.pdrgpgroup, M.requested call) :: M.sht := by
  obtain ⟨found,hfind,hins⟩ | ⟨hfind,-,-,hlink',-,-,hsht⟩ :=
    M.pgroupInsert_cases call.pgroupTarget call.pop call.pdrgpgroup call.fDSLProvenance
  · left
    obtain ⟨entry,hen,rfl⟩ := Option.map_eq_some_iff.mp hfind
    have hm := List.find?_some hen
    simp only [decide_eq_true_eq,bucketIndex_eq hlink,fMatches_iff hlink] at hm
    exact ⟨entry,List.mem_of_find?_eq_some hen,hm,hins⟩
  · right
    have hnone := List.find?_eq_none.mp (Option.map_eq_none_iff.mp hfind)
    simp only [decide_eq_true_eq,bucketIndex_eq hlink,fMatches_iff hlink] at hnone hsht
    exact ⟨hnone,fun g => by rw [CMemo.insert,hlink',hlink],hsht⟩

end

end CMemo

/-! ## Operators that match -/

section

variable {popHash : α → UInt32} (hα : Hashed popHash)

include hα

theorem SameInputs.symm {pop pop' : α} {inputs inputs' : List ℕ}
    (h : SameInputs pop inputs pop' inputs') : SameInputs pop' inputs' pop inputs := by
  refine ⟨hα.symm _ _ h.1,h.2.imp Eq.symm fun hperm => ⟨?_,hperm.2.symm⟩⟩
  rw [← hα.fInputOrderSensitive_eq _ _ h.1,hperm.1]

theorem SameInputs.trans {pop pop' pop'' : α} {inputs inputs' inputs'' : List ℕ}
    (h : SameInputs pop inputs pop' inputs') (h' : SameInputs pop' inputs' pop'' inputs'') :
    SameInputs pop inputs pop'' inputs'' := by
  refine ⟨hα.trans _ _ _ h.1 h'.1,?_⟩
  have hse := hα.fInputOrderSensitive_eq _ _ h.1
  rcases h.2 with rfl | ⟨hpop,hperm⟩
  · exact h'.2.imp_right fun hperm => ⟨hse.trans hperm.1,hperm.2⟩
  · rcases h'.2 with rfl | hperm'
    · exact .inr ⟨hpop,hperm⟩
    · exact .inr ⟨hpop,hperm.trans hperm'.2⟩

end

/-- The buckets of two calls do not depend on the order of inputs that may be permuted. -/
def OrderFree (popHash : α → UInt32) (calls : List (Insertion α)) : Prop :=
  ∀ c ∈ calls, ∀ c' ∈ calls, fMatches c.pop c'.pop = true →
    fInputOrderSensitive c.pop = false → c.pdrgpgroup.Perm c'.pdrgpgroup →
    (hashValue (popHash c.pop) c.pdrgpgroup).toNat % 50000 =
      (hashValue (popHash c'.pop) c'.pdrgpgroup).toNat % 50000

theorem eq_of_pairwise_not {β : Type*} {R : β → β → Prop} (hsymm : ∀ x y, R x y → R y x)
    {l : List β} (hl : l.Pairwise fun x y => ¬ R x y) {x y : β} (hx : x ∈ l) (hy : y ∈ l)
    (h : R x y) : x = y := by
  by_contra hne
  have : Std.Symm fun x y => ¬ R x y := ⟨fun x y hxy hyx => hxy (hsymm y x hyx)⟩
  exact hl.forall hx hy hne h

namespace CMemo

/-! ## The table after any calls -/

/-- The hash table after `calls`: every entry is in its bucket and stands for a call, every call has
an entry, and no bucket holds two matching entries. -/
structure Stored (M : CMemo α) (calls : List (Insertion α)) : Prop where
  link : ∀ g, M.pgroupDuplicate g = none
  entry : ∀ entry ∈ M.sht, entry.1 = getBucketIndex entry.2.pop entry.2.pdrgpgroup ∧
    ∃ call ∈ calls, call.pop = entry.2.pop ∧ call.pdrgpgroup = entry.2.pdrgpgroup
  call : ∀ call ∈ calls, ∃ entry ∈ M.sht, entry.1 = getBucketIndex call.pop call.pdrgpgroup ∧
    SameInputs call.pop call.pdrgpgroup entry.2.pop entry.2.pdrgpgroup
  distinct : M.sht.Pairwise fun x y =>
    ¬ (x.1 = y.1 ∧ SameInputs x.2.pop x.2.pdrgpgroup y.2.pop y.2.pdrgpgroup)

variable {M : CMemo α} {popHash : α → UInt32} (hα : Hashed popHash) {calls : List (Insertion α)}

include hα

theorem Stored.insert (hM : M.Stored calls) (call : Insertion α) :
    (M.insert call).1.Stored (calls ++ [call]) := by
  have hold : ∀ entry ∈ M.sht, entry.1 = getBucketIndex entry.2.pop entry.2.pdrgpgroup ∧
      ∃ c ∈ calls ++ [call], c.pop = entry.2.pop ∧ c.pdrgpgroup = entry.2.pdrgpgroup := by
    intro entry hen
    obtain ⟨hbk,c,hc,heq⟩ := hM.entry entry hen
    exact ⟨hbk,c,by simp [hc],heq⟩
  obtain ⟨entry,hen,hm,hins⟩ | ⟨hnone,hlink,hsht⟩ := insert_cases hM.link call
  · rw [hins]
    refine ⟨hM.link,hold,fun c hc => ?_,hM.distinct⟩
    rcases mem_append.mp hc with hc | hc
    · exact hM.call c hc
    · rw [mem_singleton.mp hc]
      exact ⟨entry,hen,hm⟩
  · refine ⟨hlink,fun entry hen => ?_,fun c hc => ?_,?_⟩
    · rw [hsht,mem_cons] at hen
      rcases hen with rfl | hen
      · exact ⟨rfl,call,by simp,rfl,rfl⟩
      · exact hold entry hen
    · rw [hsht]
      rcases mem_append.mp hc with hc | hc
      · obtain ⟨entry,hen,hsame⟩ := hM.call c hc
        exact ⟨entry,by simp [hen],hsame⟩
      · rw [mem_singleton.mp hc]
        exact ⟨_,mem_cons_self,rfl,hα.refl _,.inl rfl⟩
    · rw [hsht]
      exact pairwise_cons.mpr ⟨fun entry hen hsame =>
        hnone entry hen ⟨hsame.1.symm,hsame.2⟩,hM.distinct⟩

theorem Stored.bucket_eq (hM : M.Stored calls) {calls' : List (Insertion α)}
    (hfree : OrderFree popHash calls') (hsub : calls ⊆ calls') {call : Insertion α}
    (hcall : call ∈ calls') {entry : ℕ × CGroupExpression α} (hen : entry ∈ M.sht)
    (h : SameInputs call.pop call.pdrgpgroup entry.2.pop entry.2.pdrgpgroup) :
    entry.1 = getBucketIndex call.pop call.pdrgpgroup := by
  obtain ⟨hbk,c,hc,hpop,hins⟩ := hM.entry entry hen
  rw [← hpop,← hins] at h hbk
  rw [hbk,hα.getBucketIndex_eq,hα.getBucketIndex_eq]
  rcases h.2 with heq | ⟨hse,hperm⟩
  · rw [heq,hα.popHash_eq _ _ h.1]
  · exact (hfree call hcall c (hsub hc) h.1 hse hperm).symm

variable (hsht : M.sht = []) (hlink : ∀ g, M.pgroupDuplicate g = none)

include hsht hlink

theorem stored_insertAll (calls : List (Insertion α)) : (M.insertAll calls).Stored calls := by
  induction calls using reverseRecOn with
  | nil => exact ⟨hlink,by simp [insertAll,hsht],by simp,by simp [insertAll,hsht]⟩
  | append_singleton calls call ih =>
    rw [insertAll_append_singleton]
    exact ih.insert hα call

theorem storesOnce_of_orderFree (hfree : OrderFree popHash calls) : M.StoresOnce calls := by
  constructor
  · have hM := stored_insertAll hα hsht hlink calls
    apply hM.distinct.imp_of_mem
    intro x y hx hy hdi hm
    rw [fMatches_iff hM.link] at hm
    obtain ⟨hbk,c,hc,hpop,hins⟩ := hM.entry x hx
    have heq := hM.bucket_eq hα hfree (List.Subset.refl _) hc hy (hpop ▸ hins ▸ hm)
    exact hdi ⟨by rw [hbk,heq,hpop,hins],hm⟩
  · intro before call after hcalls entry hen hm
    have hM := stored_insertAll hα hsht hlink before
    rw [fMatches_iff hM.link,requested] at hm
    have hbk := hM.bucket_eq hα hfree (by simp [hcalls]) (by simp [hcalls]) hen hm
    obtain ⟨found,hfd,hsame,hinsert⟩ | ⟨hnone,-⟩ := insert_cases hM.link call
    · have heq : found = entry := eq_of_pairwise_not (fun x y h => ⟨h.1.symm,h.2.symm hα⟩)
        hM.distinct hfd hen
        ⟨hsame.1.trans hbk.symm,(hsame.2.symm hα).trans hα hm⟩
      rw [hinsert,heq]
    · exact absurd ⟨hbk,hm⟩ (hnone entry hen)

theorem orderFree_of_storesOnce (h : M.StoresOnce calls) : OrderFree popHash calls := by
  intro c hc c' hc' hpop hse hperm
  have hM := stored_insertAll hα hsht hlink calls
  obtain ⟨entry,hen,hbk,hsame⟩ := hM.call c hc
  obtain ⟨entry',hen',hbk',hsame'⟩ := hM.call c' hc'
  have hdi := h.distinct
  simp only [fMatches_iff hM.link] at hdi
  have heq : entry = entry' := eq_of_pairwise_not (fun x y h => h.symm hα) hdi hen hen'
    (((hsame.symm hα).trans hα ⟨hpop,.inr ⟨hse,hperm⟩⟩).trans hα hsame')
  rw [← hα.getBucketIndex_eq,← hα.getBucketIndex_eq,← hbk,← hbk',heq]

/-- Whatever is inserted into an empty memo, expressions are stored once exactly when the hashes do
not tell apart the permuted inputs that the calls offer. -/
theorem storesOnce_iff (calls : List (Insertion α)) :
    M.StoresOnce calls ↔ OrderFree popHash calls :=
  ⟨orderFree_of_storesOnce hα hsht hlink,storesOnce_of_orderFree hα hsht hlink⟩

end CMemo

/-! ## A comparison and its mirror image -/

/-- Columns, and two comparisons of which the equality may be turned round. -/
inductive Comparison where
  | ident (colref : ℕ)
  | eq
  | lt
  deriving DecidableEq

namespace Comparison

def popHash : Comparison → UInt32
  | ident colref => colref.toUInt32
  | eq => 96
  | lt => 97

instance : COperator Comparison where
  fScalar _ := true
  fLogical _ := false
  fInputOrderSensitive pop := pop ≠ eq
  fMatches a b := a = b
  getBucketIndex pop pdrgpgroup := (hashValue (popHash pop) pdrgpgroup).toNat % 50000
  deriveOutputColumns _ _ := ∅
  fScalar_of_fMatches _ _ _ := rfl

theorem hashed : Hashed popHash := by
  constructor
  · exact fun _ _ => rfl
  all_goals simp +contextual [COperator.fMatches]

def emptyMemo : CMemo Comparison := ⟨0, fun _ => false, fun _ => ∅, fun _ => none, [], []⟩

/-- The calls that insert two columns and then comparisons of their groups. -/
def calls (comparisons : List (Comparison × List ℕ)) : List (Insertion Comparison) :=
  ((ident 7, []) :: (ident 8, []) :: comparisons).map fun e => ⟨none, e.1, e.2, false⟩

theorem not_storesOnce_eq : ¬ emptyMemo.StoresOnce (calls [(eq, [0, 1]), (eq, [1, 0])]) := by
  intro h
  have hfree := CMemo.orderFree_of_storesOnce hashed rfl (fun _ => rfl) h
  revert hfree
  unfold OrderFree
  decide +kernel

theorem storesOnce_lt : emptyMemo.StoresOnce (calls [(lt, [0, 1]), (lt, [1, 0]), (eq, [1, 0])]) :=
  (CMemo.storesOnce_iff hashed rfl (fun _ => rfl) _).mpr (by unfold OrderFree; decide +kernel)

end Comparison

end PgOrca.Search
