import PgOrca.Logical.Keys

/-!
# The derived keys are keys

A project list must not multiply rows, a full outer join must not have unmatched rows that are NULL
on the keys of its inputs, and common table expressions must have the columns the keys name. A part
whose keys are not read may derive wrong ones.
-/

namespace PgOrca

open Multiset Row
open Finset (disjoint_left mem_coe disjoint_of_subset_left subset_union_left subset_union_right
  union_subset_union disjoint_coe mem_image mem_image_of_mem mem_union_left mem_union_right)

variable {C ν : Type*}

theorem nodup_map_of_factor {α β γ : Type*} {X : Multiset α} {f : α → β} {g : α → γ}
    (h : (X.map g).Nodup) (hfg : ∀ x ∈ X, ∀ y ∈ X, f x = f y → g x = g y) : (X.map f).Nodup :=
  (Multiset.Nodup.of_map g h).map_on fun x hx y hy heq =>
    inj_on_of_nodup_map h x hx y hy (hfg x hx y hy heq)

namespace Row

theorem ofTuple_getElem {output : List ℕ} {values : List (Option ν)} (hn : output.Nodup)
    (hl : values.length = output.length) {i : ℕ} (hi : i < output.length) :
    ofTuple output values (output.getD i 0) = (values[i]?).join := by
  have h := congrArg (fun vs => vs[i]?) (tuple_ofTuple hn hl)
  simp only [tuple,List.getElem?_map,List.getElem?_eq_getElem hi,Option.map_some] at h
  rw [List.getD_eq_getElem?_getD,List.getElem?_eq_getElem hi,← h]
  rfl

theorem agreeOn_assign {columns : List ℕ} {K : Finset ℕ} (hK : Disjoint K columns.toFinset)
    (values : List (Option ν)) (r : Row ℕ ν) : AgreeOn K (r.assign columns values) r := by
  intro c hc
  have hmem : c ∉ columns := fun h =>
    disjoint_left.mp hK hc (List.mem_toFinset.mpr h)
  rw [assign,if_neg hmem]

end Row

section

variable {m : Row ℕ ν → Bool} {X Y : Multiset (Row ℕ ν)} {L R KL KR : Finset ℕ} {k : LeftKind}
  {x w : Row ℕ ν} {P : Row ℕ ν → Multiset (Row ℕ ν)}

theorem agreeOn_merge_left (hw : w.SupportedOn R) (hLR : Disjoint L R)
    (hKL : KL ⊆ L) : Row.AgreeOn KL (x.merge w) x := by
  intro c hc
  have hcR : c ∉ (R : Set ℕ) := fun h =>
    disjoint_left.mp hLR (hKL hc) (mem_coe.mp h)
  rw [merge,hw c hcR,Option.or_none]

theorem agreeOn_merge_right (hx : x.SupportedOn L) (hLR : Disjoint L R)
    (hKR : KR ⊆ R) : Row.AgreeOn KR (x.merge w) w := by
  intro c hc
  have hcL : c ∉ (L : Set ℕ) := fun h =>
    disjoint_left.mp hLR (mem_coe.mp h) (hKR hc)
  rw [merge,hx c hcL,Option.none_or]

def NullOn (K : Finset ℕ) (r : Row ℕ ν) : Prop := ∀ c ∈ K, r c = none

end

variable {predicate : CScalar C}

namespace CLogical

variable [ScalarLeaf C] [ScalarMeaning C ν] [DecidableEq ν] {tables : Tables ν}
  {fContradiction : CLogical C ν → Bool} {env : Row ℕ ν} {t left right : CLogical C ν}
  {output columns : List ℕ} {elements : List (CScalarProjectElement ν)}
  {functions : CWindowFunctions ν}

def atPositions (key : Finset ℕ) (values : List (Option ν)) (i : ℕ) : Option ν :=
  if i ∈ key then (values[i]?).join else none

def TableKeysHold (tables : Tables ν) : CLogical C ν → Prop
  | get table output keys =>
    (∀ values ∈ tables table, values.length = output.length) ∧
      ∀ key ∈ keys, ((tables table).map (atPositions key)).Nodup
  | _ => True

def KeysSound (tables : Tables ν) (fContradiction : CLogical C ν → Bool)
    (t : CLogical C ν) : Prop :=
  ∀ K ∈ t.deriveKeyCollection fContradiction,
    K ⊆ t.outputColumns ∧ ∀ env, IsKey K (t.rows tables env)

variable {K : Finset ℕ} {keys : List (Finset ℕ)} {child : CLogical C ν}

/-- The key of all output columns is one exactly when no row is returned twice. -/
theorem keysSound_iff : t.KeysSound tables fContradiction ↔
    (∀ K ∈ t.operatorKeys fContradiction,
      K ⊆ t.outputColumns ∧ ∀ env, IsKey K (t.rows tables env)) ∧
    (t.operatorKeys fContradiction = [] → (t.deriveMaxCard fContradiction).ull = 1 →
      t.outputColumns ≠ ∅ → ∀ env, (t.rows tables env).Nodup) := by
  rw [KeysSound,deriveKeyCollection_eq,orOutputColumns]
  by_cases hkeys : t.operatorKeys fContradiction = []
  · by_cases hone : (t.deriveMaxCard fContradiction).ull = 1 ∧ t.outputColumns ≠ ∅
    · simp [hkeys,hone,isKey_iff_nodup (over_rows tables t _)]
    · have hnone : ((t.operatorKeys fContradiction).isEmpty &&
          (t.deriveMaxCard fContradiction).ull == 1 && !decide (t.outputColumns = ∅)) = false := by
        simpa [hkeys] using fun h => not_not.mp fun hne => hone ⟨h,hne⟩
      rw [hnone,if_neg Bool.false_ne_true]
      exact ⟨fun h => ⟨h,fun _ h1 hne => absurd ⟨h1,hne⟩ hone⟩,fun h => h.1⟩
  · have hsome : (t.operatorKeys fContradiction).isEmpty = false := by simpa using hkeys
    simp [hsome,hkeys]

theorem keysHold_get {table : ℕ} (hwf : (get table output keys : CLogical C ν).WellFormedNode)
    (hkeys : (get table output keys : CLogical C ν).TableKeysHold tables)
    (hK : K ∈ pkcKeysBaseTable keys output) : K ⊆ output.toFinset ∧
      ∀ env, IsKey K ((get table output keys : CLogical C ν).rows tables env) := by
  obtain ⟨key,hkey,rfl⟩ := List.mem_map.mp hK
  obtain ⟨hn,hpos⟩ := hwf
  obtain ⟨hlen,hdup⟩ := hkeys
  constructor
  · intro c hc
    obtain ⟨i,hi,rfl⟩ := mem_image.mp hc
    have hlt := hpos key hkey i hi
    rw [List.getD_eq_getElem?_getD,List.getElem?_eq_getElem hlt,Option.getD_some,List.mem_toFinset]
    exact List.getElem_mem hlt
  · intro env
    rw [IsKey,rows,map_map]
    refine nodup_map_of_factor (hdup key hkey) fun t ht u hu heq => ?_
    funext i
    by_cases hi : i ∈ key
    · have hlt := hpos key hkey i hi
      have hag := restrict_eq_iff.mp heq (output.getD i 0) (mem_image_of_mem _ hi)
      rw [Row.ofTuple_getElem hn (hlen t ht) hlt,Row.ofTuple_getElem hn (hlen u hu) hlt] at hag
      simp only [atPositions,if_pos hi,hag]
    · simp only [atPositions,if_neg hi]

end CLogical

namespace KeyedTable

open CLogical

def table : CLogical (CScalarTest ℕ) ℕ := .get 0 [0] [{0}]

def contents (values : List ℕ) : Tables ℕ := fun _ => values.map fun v => [some v]

end KeyedTable

end PgOrca
