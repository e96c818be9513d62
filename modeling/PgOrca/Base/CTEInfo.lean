import PgOrca.Library.Digraph

/-!
# Which CTEs a query uses

The main query and every CTE keep one counter for each CTE they consume. A CTE is used if the main
query reaches it through these consumers.
-/

namespace PgOrca

open List Relation

structure CCTEInfoEntry where
  ulCTEId : ℕ
  fUsed : Bool
  deriving DecidableEq

/-- A parent is a CTE or the main query, `none`, for which the source takes the id
`gpos::ulong_max` that no CTE has. -/
structure CCTEInfo where
  entries : List CCTEInfoEntry
  consumers : AList fun _ : Option ℕ => AList fun _ : ℕ => ℕ

variable (info : CCTEInfo)

namespace CCTEInfo

def new : CCTEInfo := ⟨[], ∅⟩

def ids : List ℕ := info.entries.map CCTEInfoEntry.ulCTEId

/-- The map takes no second entry for an id. -/
def addCTEProducer (ulCTEId : ℕ) : CCTEInfo :=
  if ulCTEId ∈ info.ids then info else { info with entries := info.entries ++ [⟨ulCTEId, true⟩] }

/-- The counters inside a parent; a parent without a map has none. -/
def counters (parent : Option ℕ) : AList fun _ : ℕ => ℕ :=
  (info.consumers.lookup parent).getD ∅

def incrementConsumers (ulConsumerId : ℕ) (parent : Option ℕ) : CCTEInfo :=
  let count := match (info.counters parent).lookup ulConsumerId with
    | none => 1
    | some count => count + 1
  { info with consumers :=
      info.consumers.insert parent ((info.counters parent).insert ulConsumerId count) }

def ulConsumersInParent (ulConsumerId : ℕ) (parent : Option ℕ) : ℕ :=
  ((info.counters parent).lookup ulConsumerId).getD 0

def ulConsumers (ulCTEId : ℕ) : ℕ :=
  info.ulConsumersInParent ulCTEId none + ((info.entries.filter CCTEInfoEntry.fUsed).map
    fun entry => info.ulConsumersInParent ulCTEId (some entry.ulCTEId)).sum

/-- The CTEs not found yet, and the stack of those whose consumers are still to be read. -/
abbrev SSearch := Finset ℕ × List ℕ

def findConsumer (s : SSearch) (ulConsumerId : ℕ) : SSearch :=
  if ulConsumerId ∈ s.1 then (s.1.erase ulConsumerId, ulConsumerId :: s.2) else s

def findConsumersInParent (parent : Option ℕ) (s : SSearch) : SSearch :=
  (info.counters parent).keys.foldl findConsumer s

/-- The body of the loop over the stack. -/
def popCTE : SSearch → Option (SSearch ⊕ Finset ℕ)
  | (unused, []) => some (.inr unused)
  | (unused, id :: stack) => some (.inl (info.findConsumersInParent (some id) (unused, stack)))

/-- No more rounds than one for each CTE are needed. -/
def unusedCTEs : Option (Finset ℕ) :=
  loopWithin info.popCTE (info.entries.length + 1)
    (info.findConsumersInParent none (info.ids.toFinset, []))

variable (unused : Finset ℕ)

def markUnused : CCTEInfo := { info with
  entries := info.entries.map fun entry => { entry with fUsed := entry.ulCTEId ∉ unused } }

def markUnusedCTEs : Option CCTEInfo := info.unusedCTEs.map info.markUnused

inductive Call where
  | addCTEProducer (ulCTEId : ℕ)
  | incrementConsumers (ulConsumerId : ℕ) (parent : Option ℕ)
  deriving DecidableEq

def call : Call → CCTEInfo
  | .addCTEProducer id => info.addCTEProducer id
  | .incrementConsumers id parent => info.incrementConsumers id parent

def run (calls : List Call) : CCTEInfo := calls.foldl call new

/-- A consumer of the CTE `c` was recorded in the parent `p`. -/
def Recorded (calls : List Call) (p q : Option ℕ) : Prop :=
  ∃ c, q = some c ∧ .addCTEProducer c ∈ calls ∧ .incrementConsumers c p ∈ calls

def Reached (calls : List Call) (p : Option ℕ) : Prop := ReflTransGen (Recorded calls) none p

variable {calls : List Call}

theorem run_concat (calls : List Call) (c : Call) : run (calls ++ [c]) = (run calls).call c :=
  foldl_concat ..

theorem ids_run (calls : List Call) :
    (run calls).ids.Nodup ∧ ∀ id, id ∈ (run calls).ids ↔ .addCTEProducer id ∈ calls := by
  induction calls using reverseRecOn with
  | nil => simp [run,new,ids]
  | append_singleton calls c ih =>
    rw [run_concat]
    cases c with
    | incrementConsumers id parent => simpa [call,incrementConsumers,ids] using ih
    | addCTEProducer id =>
      rw [call,addCTEProducer]
      split_ifs <;> grind [ids,nodup_append]

theorem counters_incrementConsumers (c c' : ℕ) (p p' : Option ℕ) :
    ((info.incrementConsumers c' p').counters p).lookup c = if c = c' ∧ p = p' then
      some (info.ulConsumersInParent c p + 1) else (info.counters p).lookup c := by
  simp only [counters,ulConsumersInParent,incrementConsumers]
  by_cases hp : p = p'
  · subst hp
    by_cases hc : c = c'
    · subst hc
      cases AList.lookup c ((info.consumers.lookup p).getD ∅) <;> simp
    · simp [hc,AList.lookup_insert_ne]
  · simp [hp,AList.lookup_insert_ne]

theorem counters_run (calls : List Call) (c : ℕ) (p : Option ℕ) :
    ((run calls).counters p).lookup c = if .incrementConsumers c p ∈ calls then
      some (calls.count (.incrementConsumers c p)) else none := by
  induction calls using reverseRecOn with
  | nil => simp [run,new,counters]
  | append_singleton calls last ih =>
    rw [run_concat]
    cases last with
    | addCTEProducer id =>
      have hsame : ((run calls).addCTEProducer id).counters p = (run calls).counters p := by
        unfold addCTEProducer
        split_ifs <;> rfl
      simp [call,hsame,ih,count_append]
    | incrementConsumers c' p' =>
      rw [call,counters_incrementConsumers,ulConsumersInParent,ih]
      by_cases hcp : c = c' ∧ p = p'
      · obtain ⟨rfl,rfl⟩ := hcp
        by_cases hmem : Call.incrementConsumers c p ∈ calls <;>
          simp [hmem,count_append,count_eq_zero_of_not_mem]
      · have hne : Call.incrementConsumers c p ≠ .incrementConsumers c' p' := by simpa using hcp
        simp [hcp,hne,count_append,Ne.symm hne]

theorem mem_counters_run {c : ℕ} {p : Option ℕ} :
    c ∈ ((run calls).counters p).keys ↔ .incrementConsumers c p ∈ calls := by
  rw [← AList.mem_keys,← AList.lookup_isSome,counters_run]
  split_ifs <;> simpa

theorem ulConsumersInParent_run (calls : List Call) (c : ℕ) (p : Option ℕ) :
    (run calls).ulConsumersInParent c p = calls.count (.incrementConsumers c p) := by
  rw [ulConsumersInParent,counters_run]
  split_ifs with hmem
  · rfl
  · exact (count_eq_zero_of_not_mem hmem).symm

theorem foldl_findConsumer (l : List ℕ) (s : SSearch) :
    (l.foldl findConsumer s).1.card + (l.foldl findConsumer s).2.length = s.1.card + s.2.length ∧
    (∀ x, x ∈ (l.foldl findConsumer s).1 ↔ x ∈ s.1 ∧ x ∉ l) ∧
    ∀ x, x ∈ (l.foldl findConsumer s).2 ↔ x ∈ s.2 ∨ x ∈ s.1 ∧ x ∈ l := by
  induction l generalizing s with
  | nil => simp
  | cons c l ih =>
    obtain ⟨hcard,hu,hst⟩ := ih (findConsumer s c)
    rw [foldl_cons,hcard]
    by_cases hc : c ∈ s.1
    · have hpos := Finset.card_pos.mpr ⟨c,hc⟩
      simp only [findConsumer,if_pos hc,Finset.card_erase_of_mem hc,length_cons] at hu hst ⊢
      refine ⟨by omega,fun x => ?_,fun x => ?_⟩ <;> grind
    · simp only [findConsumer,if_neg hc] at hu hst ⊢
      refine ⟨trivial,fun x => ?_,fun x => ?_⟩ <;> grind

def found (calls : List Call) (unused : Finset ℕ) : Set (Option ℕ) :=
  {p | ∀ x ∈ p, .addCTEProducer x ∈ calls ∧ x ∉ unused}

def pending (stack : List ℕ) : Set (Option ℕ) := {p | ∃ x ∈ stack, p = some x}

theorem worklist_findConsumersInParent {p : Option ℕ} {s : SSearch}
    (h : Worklist (Recorded calls) none (found calls s.1) (insert p (pending s.2)))
    (hs : ∀ x ∈ s.1, .addCTEProducer x ∈ calls) :
    Worklist (Recorded calls) none (found calls ((run calls).findConsumersInParent p s).1)
      (pending ((run calls).findConsumersInParent p s).2) := by
  obtain ⟨-,hleft,hst⟩ := foldl_findConsumer ((run calls).counters p).keys s
  convert h.step using 1
  · ext (_ | x)
    · simp [found]
    · simp [found,findConsumersInParent,hleft,mem_counters_run,Recorded]
      grind
  · ext (_ | x)
    · simp [pending,Recorded]
    · simp [pending,found,findConsumersInParent,hst,mem_counters_run,Recorded]
      grind

theorem card_findConsumersInParent (p : Option ℕ) (s : SSearch) :
    (info.findConsumersInParent p s).1.card + (info.findConsumersInParent p s).2.length =
      s.1.card + s.2.length := (foldl_findConsumer _ s).1

theorem unusedCTEs_run (calls : List Call) : ∃ unused, (run calls).unusedCTEs = some unused ∧
    ∀ x ∈ (run calls).ids, x ∉ unused ↔ Reached calls (some x) := by
  have hids := (ids_run calls).2
  have hsub (p : Option ℕ) (s : SSearch) (hs : ∀ x ∈ s.1, .addCTEProducer x ∈ calls) :
      ∀ x ∈ ((run calls).findConsumersInParent p s).1, .addCTEProducer x ∈ calls :=
    fun x hx => hs x (((foldl_findConsumer _ s).2.1 x).mp hx).1
  have hst : Worklist (Recorded calls) none (found calls (run calls).ids.toFinset)
      (insert none (pending [])) := by
    refine ⟨by simp [found],?_,by simp [found,pending],?_⟩ <;> rintro (_ | x) hx
    · exact .refl
    · simp [found,hids] at hx
    · simp
    · simp [found,hids] at hx
  refine loopWithin_ends (fun s => Worklist (Recorded calls) none (found calls s.1) (pending s.2) ∧
    ∀ x ∈ s.1, .addCTEProducer x ∈ calls) (fun s => s.1.card + s.2.length)
    (fun _ unused => ∀ x ∈ (run calls).ids, x ∉ unused ↔ Reached calls (some x)) (fun s hs => ?_)
    ⟨worklist_findConsumersInParent hst (by simp [hids]),hsub _ _ (by simp [hids])⟩ ?_
  · obtain ⟨unused,_ | ⟨id,stack⟩⟩ := s
    · refine .inl ⟨unused,rfl,fun x hx => ?_⟩
      have hfd : Worklist (Recorded calls) none (found calls unused) ∅ := by
        simpa [pending] using hs.1
      rw [Reached,← hfd.mem_iff]
      simp [found,← hids,hx]
    · have hnext : Worklist (Recorded calls) none (found calls unused)
          (insert (some id) (pending stack)) := by
        convert hs.1 using 1
        ext p
        simp [pending]
      refine .inr ⟨_,rfl,⟨worklist_findConsumersInParent hnext hs.2,hsub _ _ hs.2⟩,?_,fun _ h => h⟩
      rw [card_findConsumersInParent]
      exact Nat.lt_succ_self _
  · rw [card_findConsumersInParent]
    have hle := toFinset_card_le (run calls).ids
    simp only [ids,length_map] at hle
    simpa [ids] using Nat.lt_succ_of_le hle

theorem ids_markUnused : (info.markUnused unused).ids = info.ids := by
  simp [markUnused,ids]

theorem unusedCTEs_markUnused : (info.markUnused unused).unusedCTEs = info.unusedCTEs := by
  simp only [unusedCTEs,ids_markUnused]
  simp only [markUnused,length_map]
  rfl

theorem ulConsumers_markUnused (hids : info.ids.Nodup) (unused : Finset ℕ)
    (id : ℕ) : (info.markUnused unused).ulConsumers id = info.ulConsumersInParent id none +
      ∑ p ∈ info.ids.toFinset with p ∉ unused, info.ulConsumersInParent id (some p) := by
  have hset : {p ∈ info.ids.toFinset | p ∉ unused} = (info.ids.filter (· ∉ unused)).toFinset := by
    ext p
    simp
  rw [hset,sum_toFinset _ (hids.filter _),ids,filter_map,List.map_map,ulConsumers,markUnused,
    filter_map,List.map_map]
  rfl

open Classical in
/-- The marks are reachability, the counts are those of the used parents, and marking again changes
nothing. -/
theorem markUnusedCTEs_reachable (calls : List Call) :
    ∃ marked, (run calls).markUnusedCTEs = some marked ∧
      (∀ id, id ∈ marked.ids ↔ .addCTEProducer id ∈ calls) ∧
      (∀ entry ∈ marked.entries, entry.fUsed = true ↔ Reached calls (some entry.ulCTEId)) ∧
      (∀ id, marked.ulConsumers id = calls.count (.incrementConsumers id none) +
        ∑ p ∈ marked.ids.toFinset with Reached calls (some p),
          calls.count (.incrementConsumers id (some p))) ∧
      marked.markUnusedCTEs = some marked := by
  obtain ⟨unused,hu,hsea⟩ := unusedCTEs_run calls
  obtain ⟨hnd,hids⟩ := ids_run calls
  refine ⟨(run calls).markUnused unused,by simp [markUnusedCTEs,hu],?_,?_,?_,?_⟩
  · rwa [ids_markUnused]
  · intro entry hen
    obtain ⟨old,hold,rfl⟩ := mem_map.mp hen
    simpa using hsea _ (mem_map_of_mem hold)
  · intro id
    rw [ulConsumers_markUnused _ hnd,ids_markUnused]
    simp only [ulConsumersInParent_run]
    congr 2
    ext p
    simp +contextual [hsea]
  · rw [markUnusedCTEs,unusedCTEs_markUnused,hu]
    simp [markUnused]

end CCTEInfo

end PgOrca
