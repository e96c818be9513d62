import Mathlib

/-!
# Hash maps

A chain is made when a key first hashes to it. The keys are also kept in an array of their own,
which iteration reads; a deletion takes the entry out of its chain only.
-/

namespace PgOrca

open List

variable {κ τ : Type*}

/-- What a hash map is made with. -/
structure CHashFns (κ : Type*) where
  hashFn : κ → ℕ
  eqFn : κ → κ → Bool
  numChains : ℕ
  numChains_pos : 0 < numChains
  equivalence : Equivalence fun a b => eqFn a b = true
  hashFn_eq : ∀ {a b}, eqFn a b = true → hashFn a = hashFn b

namespace CHashFns

variable (fns : CHashFns κ)

def getChain (key : κ) : Fin fns.numChains :=
  ⟨fns.hashFn key % fns.numChains, Nat.mod_lt _ fns.numChains_pos⟩

abbrev Key : Type _ := Quotient ⟨fun a b => fns.eqFn a b = true, fns.equivalence⟩

/-- The key up to equality. -/
def key (a : κ) : fns.Key := Quotient.mk _ a

theorem key_eq_iff {a b : κ} : fns.key a = fns.key b ↔ fns.eqFn a b = true := Quotient.eq

instance : DecidableEq fns.Key := fun q q' =>
  Quotient.recOnSubsingleton₂ q q' fun _ _ => decidable_of_iff _ fns.key_eq_iff.symm

theorem getChain_eq {a b : κ} (h : fns.key a = fns.key b) : fns.getChain a = fns.getChain b :=
  Fin.ext (congrArg (· % fns.numChains) (fns.hashFn_eq (fns.key_eq_iff.mp h)))

/-- The finite maps that the hash maps stand for. -/
abbrev FinMap (τ : Type*) : Type _ := Finmap fun _ : fns.Key => τ

def entries (chain : List (κ × τ)) : List (Σ _ : fns.Key, τ) :=
  chain.map fun elem => ⟨fns.key elem.1, elem.2⟩

end CHashFns

structure CHashMap (fns : CHashFns κ) (τ : Type*) where
  size : ℕ := 0
  chains : Fin fns.numChains → Option (List (κ × τ)) := fun _ => none
  keys : List κ := []

/-- `Swap` with the last element, then `RemoveLast`. -/
def swapRemove {α : Type*} (chain : List α) (ul : ℕ) : List α :=
  match chain.getLast? with
  | none => []
  | some last => (chain.set ul last).dropLast

namespace CHashMap

variable {fns : CHashFns κ} (map : CHashMap fns τ)

def lookup (key : κ) : Option (κ × τ) :=
  (map.chains (fns.getChain key)).bind (·.find? fun elem => fns.eqFn elem.1 key)

def find (key : κ) : Option τ := (map.lookup key).map Prod.snd

def insert (key : κ) (value : τ) : Bool × CHashMap fns τ :=
  if (map.find key).isSome then (false, map)
  else
    let i := fns.getChain key
    (true, {
      size := map.size + 1
      chains := Function.update map.chains i (some ((map.chains i).getD [] ++ [(key, value)]))
      keys := map.keys ++ [key] })

/-- A change of the chain at the position of the key, where there is one. -/
def edit (key : κ) (change : List (κ × τ) → ℕ → List (κ × τ)) : Bool × CHashMap fns τ :=
  let i := fns.getChain key
  if (map.lookup key).isSome then
    (true, { map with
      chains := Function.update map.chains i ((map.chains i).map fun chain =>
        change chain (chain.findIdx fun elem => fns.eqFn elem.1 key)) })
  else (false, map)

def replace (key : κ) (ptNew : τ) : Bool × CHashMap fns τ :=
  map.edit key fun chain ul => chain.modify ul fun elem => (elem.1, ptNew)

def delete (key : κ) : Bool × CHashMap fns τ := map.edit key swapRemove

/-- The keys that `CHashMapIter` returns until it cannot advance. -/
def iterate : List (Option κ) := map.keys.map fun key => (map.lookup key).map Prod.fst

/-! ### Histories -/

inductive Call (κ τ : Type*) where
  | insert (key : κ) (value : τ)
  | replace (key : κ) (value : τ)
  | delete (key : κ)

def call : Call κ τ → Bool × CHashMap fns τ
  | .insert key value => map.insert key value
  | .replace key value => map.replace key value
  | .delete key => map.delete key

/-- The call on a finite map. -/
def Call.denote (m : fns.FinMap τ) : Call κ τ → Bool × fns.FinMap τ
  | .insert key value =>
    if fns.key key ∈ m then (false, m) else (true, m.insert (fns.key key) value)
  | .replace key value =>
    if fns.key key ∈ m then (true, m.insert (fns.key key) value) else (false, m)
  | .delete key => if fns.key key ∈ m then (true, m.erase (fns.key key)) else (false, m)

/-- The answers to the calls, and what the last one leaves. -/
def history {σ : Type*} (step : σ → Call κ τ → Bool × σ) : σ → List (Call κ τ) → List Bool × σ
  | s, [] => ([], s)
  | s, c :: calls =>
    let rest := history step (step s c).2 calls
    ((step s c).1 :: rest.1, rest.2)

/-- No call deletes a key that the finite map has. -/
def DeletesNothing : fns.FinMap τ → List (Call κ τ) → Prop
  | _, [] => True
  | m, c :: calls => (∀ key, c = .delete key → fns.key key ∉ m) ∧
    DeletesNothing (c.denote m).2 calls

end CHashMap

/-! ### Chains -/

theorem swapRemove_perm {α : Type*} (before after : List α) (e : α) :
    (swapRemove (before ++ e :: after) before.length).Perm (before ++ after) := by
  rcases eq_nil_or_concat' after with rfl | ⟨after,last,rfl⟩
  · simp [swapRemove]
  · have hset : (before ++ e :: (after ++ [last])).set before.length last =
        (before ++ last :: after) ++ [last] := by simp
    have hlast : (before ++ e :: (after ++ [last])).getLast? = some last := by
      rw [← cons_append,← append_assoc,getLast?_concat]
    simp only [swapRemove,hlast,hset,dropLast_concat]
    exact (perm_append_singleton last after).symm.append_left before

namespace CHashMap

variable {fns : CHashFns κ} {map : CHashMap fns τ} {m : fns.FinMap τ}

theorem find?_eq_dlookup (chain : List (κ × τ)) (k : κ) :
    (chain.find? fun elem => fns.eqFn elem.1 k).map Prod.snd =
      (fns.entries chain).dlookup (fns.key k) := by
  induction chain with
  | nil => rfl
  | cons elem chain ih =>
    rw [CHashFns.entries,map_cons,find?_cons]
    by_cases h : fns.eqFn elem.1 k = true
    · rw [h,fns.key_eq_iff.mpr h,dlookup_cons_eq]
      rfl
    · rw [Bool.eq_false_iff.mpr h,dlookup_cons_ne _ _ fun heq => h (fns.key_eq_iff.mp heq.symm)]
      exact ih

/-- The chains hold the entries of the finite map. -/
structure Stores (chains : Fin fns.numChains → Option (List (κ × τ)))
    (m : fns.FinMap τ) : Prop where
  nodup : ∀ i, (fns.entries ((chains i).getD [])).NodupKeys
  lookup : ∀ k, m.lookup (fns.key k) =
    (fns.entries ((chains (fns.getChain k)).getD [])).dlookup (fns.key k)

theorem Stores.find_eq (h : Stores map.chains m) (k : κ) : map.find k = m.lookup (fns.key k) := by
  rw [h.lookup,← find?_eq_dlookup,find,CHashMap.lookup]
  cases map.chains (fns.getChain k) <;> rfl

/-- A new chain of a key, which has the other elements of the old one. -/
theorem Stores.update (h : Stores map.chains m) {k k' : κ} (hk : fns.key k' = fns.key k)
    {chain rest : List (κ × τ)} (v v' : Option τ) (hrest : fns.key k ∉ (fns.entries rest).keys)
    (hold : ((map.chains (fns.getChain k)).getD []).Perm (v.toList.map (Prod.mk k') ++ rest))
    (hnew : chain.Perm (v'.toList.map (Prod.mk k') ++ rest)) :
    Stores (Function.update map.chains (fns.getChain k) (some chain))
      (v'.elim (m.erase (fns.key k)) fun v => m.insert (fns.key k) v) := by
  have hperm {chain} {v : Option τ} (h : chain.Perm (v.toList.map (Prod.mk k') ++ rest)) :
      (fns.entries chain).Perm (v.toList.map (Sigma.mk (fns.key k)) ++ fns.entries rest) := by
    rw [← hk]
    refine (h.map _).trans ?_
    cases v <;> exact .refl _
  have hnd : (fns.entries rest).NodupKeys :=
    ((perm_nodupKeys (hperm hold)).mp (h.nodup _)).sublist (sublist_append_right _ _)
  have hnodup : (fns.entries chain).NodupKeys := by
    rw [perm_nodupKeys (hperm hnew)]
    cases v' with
    | none => exact hnd
    | some v => exact nodupKeys_cons.mpr ⟨hrest,hnd⟩
  refine ⟨fun i => ?_,fun a => ?_⟩
  · by_cases hi : i = fns.getChain k
    · subst hi
      simpa using hnodup
    · simpa [hi] using h.nodup i
  · by_cases hi : fns.getChain a = fns.getChain k
    · rw [hi,Function.update_self,Option.getD_some,perm_dlookup _ hnodup (hperm hnew)]
      by_cases ha : fns.key a = fns.key k
      · rw [ha]
        cases v' <;> simp [dlookup_eq_none.mpr hrest]
      · have hother := h.lookup a
        rw [hi,perm_dlookup _ (h.nodup _) (hperm hold)] at hother
        cases v <;> cases v' <;> simpa [ha,dlookup_cons_ne] using hother
    · rw [Function.update_of_ne hi,← h.lookup]
      cases v' <;> simp [mt fns.getChain_eq hi]

theorem Stores.lookup_isSome (h : Stores map.chains m) (k : κ) :
    (map.lookup k).isSome = true ↔ fns.key k ∈ m := by
  rw [← Finmap.lookup_isSome,← h.find_eq,find,Option.isSome_map]

/-- The map has the entries of the finite map, whose keys are among those in its array. -/
structure Represents (map : CHashMap fns τ) (m : fns.FinMap τ) : Prop where
  stores : Stores map.chains m
  length : map.keys.length = map.size
  listed : ∀ q ∈ m, q ∈ map.keys.map fns.key

theorem keys_insert (q : fns.Key) (v : τ) : (m.insert q v).keys = Insert.insert q m.keys := by
  ext q'
  rw [Finmap.mem_keys,Finmap.mem_insert,Finset.mem_insert,Finmap.mem_keys]

theorem Represents.new : Represents ({} : CHashMap fns τ) ∅ where
  stores := ⟨fun _ => nodupKeys_nil,fun _ => rfl⟩
  length := rfl
  listed _ hq := absurd hq Finmap.notMem_empty

section

variable (h : Represents map m)

include h

theorem Represents.keys_le : m.keys.val ≤ (map.keys.map fns.key : Multiset fns.Key) :=
  (Multiset.le_iff_subset m.keys.nodup).mpr fun q hq => h.listed q (Finmap.mem_keys.mp hq)

theorem Represents.card_le : m.keys.card ≤ map.size := by
  simpa [h.length] using Multiset.card_le_card h.keys_le

/-- A change that keeps the other elements gives the key another value, or none. -/
theorem Represents.edit {k : κ} (hk : fns.key k ∈ m) (v : Option τ)
    (change : List (κ × τ) → ℕ → List (κ × τ))
    (hchange : ∀ before elem after, (change (before ++ elem :: after) before.length).Perm
      (v.toList.map (Prod.mk elem.1) ++ (before ++ after))) :
    ∃ map', map.edit k change = (true, map') ∧ map'.size = map.size ∧
      Represents map' (v.elim (m.erase (fns.key k)) fun v => m.insert (fns.key k) v) := by
  have hsome := (h.stores.lookup_isSome k).mpr hk
  obtain ⟨elem,helem⟩ := Option.isSome_iff_exists.mp hsome
  obtain ⟨chain,hchain,hfind⟩ := Option.bind_eq_some_iff.mp helem
  obtain ⟨heq,before,after,rfl,hbefore⟩ := find?_eq_some_iff_append.mp hfind
  have hidx : (before ++ elem :: after).findIdx (fun elem => fns.eqFn elem.1 k) =
      before.length := by
    have hlen : before.findIdx (fun elem => fns.eqFn elem.1 k) = before.length :=
      findIdx_eq_length.mpr fun e he => by simpa using hbefore e he
    simp [findIdx_append,hlen,findIdx_cons,heq]
  have hkey := fns.key_eq_iff.mpr heq
  have hold : ((map.chains (fns.getChain k)).getD []).Perm (elem :: (before ++ after)) := by
    rw [hchain]
    exact perm_middle
  have hrest : fns.key k ∉ (fns.entries (before ++ after)).keys := by
    rw [← hkey]
    exact notMem_keys_of_nodupKeys_cons ((perm_nodupKeys (hold.map _)).mp (h.stores.nodup _))
  have hstores := h.stores.update hkey (some elem.2) v hrest hold (hchange before elem after)
  rw [CHashMap.edit,if_pos hsome,hchain,Option.map_some,hidx]
  refine ⟨_,rfl,rfl,hstores,h.length,fun q hq => h.listed q ?_⟩
  cases v with
  | none => exact (Finmap.mem_erase.mp hq).2
  | some v => exact (Finmap.mem_insert.mp hq).elim (· ▸ hk) id

theorem Represents.call (c : Call κ τ) :
    (map.call c).1 = (c.denote m).1 ∧ Represents (map.call c).2 (c.denote m).2 ∧
      ((map.call c).2.size = (c.denote m).2.keys.card ↔
        map.size = m.keys.card ∧ ∀ k, c = .delete k → fns.key k ∉ m) := by
  cases c with
  | insert k v =>
    by_cases hk : fns.key k ∈ m
    · have hfind : (map.find k).isSome = true := by rwa [h.stores.find_eq,Finmap.lookup_isSome]
      simp [CHashMap.call,CHashMap.insert,Call.denote,hk,hfind,h]
    · have hfind : map.find k = none := by rwa [h.stores.find_eq,Finmap.lookup_eq_none]
      have hrest : fns.key k ∉ (fns.entries ((map.chains (fns.getChain k)).getD [])).keys := by
        rw [← dlookup_eq_none,← Finmap.lookup_eq_none.mpr hk,h.stores.lookup]
      have hcall : map.call (.insert k v) = map.insert k v := rfl
      rw [hcall,CHashMap.insert,hfind,Call.denote,if_neg hk,if_neg (by simp)]
      refine ⟨rfl,⟨?_,?_,?_⟩,?_⟩
      · exact h.stores.update rfl none (some v) hrest (.refl _) perm_append_comm
      · simp [h.length]
      · intro q hq
        rw [map_append,mem_append]
        exact (Finmap.mem_insert.mp hq).symm.imp (h.listed q) (by simp [·])
      · have hcard := Finset.card_insert_of_notMem (mt Finmap.mem_keys.mp hk)
        simp [keys_insert,hcard]
  | replace k v =>
    by_cases hk : fns.key k ∈ m
    · obtain ⟨map',hedit,hsize,hnext⟩ := h.edit hk (some v)
        (fun chain ul => chain.modify ul fun elem => (elem.1,v)) fun before elem after => by
          rw [modify_eq_take_drop]
          simp
      rw [CHashMap.call,CHashMap.replace,hedit,Call.denote,if_pos hk]
      exact ⟨rfl,hnext,by simp [hsize,keys_insert,Finmap.mem_keys.mpr hk]⟩
    · simp [CHashMap.call,CHashMap.replace,CHashMap.edit,h.stores.lookup_isSome,Call.denote,hk,h]
  | delete k =>
    by_cases hk : fns.key k ∈ m
    · obtain ⟨map',hedit,hsize,hnext⟩ := h.edit hk none swapRemove
        fun before elem after => swapRemove_perm before after elem
      rw [CHashMap.call,CHashMap.delete,hedit,Call.denote,if_pos hk]
      have hlt := Finset.card_erase_lt_of_mem (Finmap.mem_keys.mpr hk)
      have hle := h.card_le
      refine ⟨rfl,hnext,iff_of_false ?_ fun hquiet => hquiet.2 k rfl hk⟩
      rw [hsize,Finmap.keys_erase]
      omega
    · simp [CHashMap.call,CHashMap.delete,CHashMap.edit,h.stores.lookup_isSome,Call.denote,hk,h]

theorem Represents.runs (calls : List (Call κ τ)) :
    (history CHashMap.call map calls).1 = (history Call.denote m calls).1 ∧
      Represents (history CHashMap.call map calls).2 (history Call.denote m calls).2 ∧
      ((history CHashMap.call map calls).2.size = (history Call.denote m calls).2.keys.card ↔
        map.size = m.keys.card ∧ DeletesNothing m calls) := by
  induction calls generalizing map m with
  | nil => simp [CHashMap.history,DeletesNothing,h]
  | cons c calls ih =>
    obtain ⟨hanswer,hnext,hsize⟩ := h.call c
    obtain ⟨hanswers,hlast,hsizes⟩ := ih hnext
    refine ⟨congrArg₂ cons hanswer hanswers,hlast,hsizes.trans ?_⟩
    rw [hsize,and_assoc,DeletesNothing]

theorem Represents.iterate_eq
    (hkeys : (map.keys.map fns.key : Multiset fns.Key) = m.keys.val) :
    (map.iterate.map (Option.map fns.key) : Multiset (Option fns.Key)) = m.keys.val.map some := by
  have hiter : map.iterate.map (Option.map fns.key) = (map.keys.map fns.key).map some := by
    rw [iterate,map_map,map_map]
    refine map_congr_left fun k hk => ?_
    have hmem : fns.key k ∈ m := by
      rw [← Finmap.mem_keys,← Finset.mem_val,← hkeys]
      exact mem_map_of_mem hk
    obtain ⟨elem,helem⟩ := Option.isSome_iff_exists.mp ((h.stores.lookup_isSome k).mpr hmem)
    obtain ⟨chain,_,hfind⟩ := Option.bind_eq_some_iff.mp helem
    have heq := find?_some hfind
    simpa [helem] using fns.key_eq_iff.mpr heq
  rw [hiter,← hkeys]
  rfl

end

/-- The answers and the values are those of the finite map; its keys are counted and listed just
when no key was deleted. -/
theorem history_refines_iff (fns : CHashFns κ) (calls : List (Call κ τ)) :
    let run := CHashMap.history call ({} : CHashMap fns τ) calls
    let denoted := CHashMap.history Call.denote (∅ : fns.FinMap τ) calls
    run.1 = denoted.1 ∧ (∀ key, run.2.find key = denoted.2.lookup (fns.key key)) ∧
      (run.2.size = denoted.2.keys.card ∧
        (run.2.keys.map fns.key : Multiset fns.Key) = denoted.2.keys.val ∧
        (run.2.iterate.map (Option.map fns.key) : Multiset (Option fns.Key)) =
          denoted.2.keys.val.map some ↔
        DeletesNothing (∅ : fns.FinMap τ) calls) := by
  intro run denoted
  obtain ⟨hanswers,h,hsize⟩ := Represents.new.runs calls
  refine ⟨hanswers,h.stores.find_eq,fun hall => (hsize.mp hall.1).2,fun hquiet => ?_⟩
  have hcard := hsize.mpr ⟨rfl,hquiet⟩
  have hkeys := (Multiset.eq_of_le_of_card_le h.keys_le (by simp [h.length,hcard])).symm
  exact ⟨hcard,hkeys,h.iterate_eq hkeys⟩

def ulongKeys : CHashFns ℕ where
  hashFn := id
  eqFn a b := a == b
  numChains := 127
  numChains_pos := by decide
  equivalence := by simpa using eq_equivalence
  hashFn_eq h := eq_of_beq h

/-- A key that was inserted and deleted is not found, but it is counted and listed. -/
theorem deleted_key_listed :
    let run := CHashMap.history call ({} : CHashMap ulongKeys ℕ) [.insert 3 5,.delete 3]
    let denoted := CHashMap.history Call.denote (∅ : ulongKeys.FinMap ℕ) [.insert 3 5,.delete 3]
    run.2.find 3 = none ∧ denoted.2.keys.card = 0 ∧ run.2.size = 1 ∧ run.2.keys = [3] ∧
      run.2.iterate = [none] := by
  decide

end CHashMap

end PgOrca
