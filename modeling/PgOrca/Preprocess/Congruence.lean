import PgOrca.Library.Alignment
import PgOrca.Preprocess.Semantics

/-!
# Operators on corresponding rows

When the inputs of an operator correspond row by row and agree on the columns that the operator
reads, its results do so too.
-/

namespace PgOrca.Preprocess

open Finset List

open Unnesting (CDatum)
open List (mem_of_mem_filter mem_cons_self)

universe u

variable {β : Type u} {C : Set ℕ}

abbrev Alike (C : Set ℕ) (X Y : List (Row ℕ (CDatum β))) : Prop :=
  List.Forall₂ (fun r s => Set.EqOn r s C) X Y

section

variable {r s : Row ℕ (CDatum β)}

theorem eqOn_assign (h : Set.EqOn r s C) (columns : List ℕ) (values : List (Option (CDatum β))) :
    Set.EqOn (r.assign columns values) (s.assign columns values) C := by
  intro c hc
  simp only [Row.assign]
  split
  · rfl
  · exact h hc

theorem eqOn_scope {outer outer' : Row ℕ (CDatum β)} {A B : Finset ℕ} (h : Set.EqOn r s C)
    (hout : Set.EqOn outer outer' C) (hAB : ∀ c ∈ C, c ∈ A ↔ c ∈ B) :
    Set.EqOn (r.scope A outer) (s.scope B outer') C := by
  intro c hc
  simp only [Row.scope,hAB c hc]
  split
  · exact h hc
  · exact hout hc

theorem tuple_eq (h : Set.EqOn r s C) {columns : List ℕ} (hcols : ∀ c ∈ columns, c ∈ C) :
    r.tuple columns = s.tuple columns :=
  map_congr_left fun c hc => h (hcols c hc)

end

section

variable (exec : CExecution β)

theorem compare_eq {pos : COrderSpec} (hpos : ∀ poe ∈ pos, poe.colref ∈ C)
    {r r' s s' : Row ℕ (CDatum β)} (hr : Set.EqOn r r' C) (hs : Set.EqOn s s' C) :
    COrderSpec.compare exec pos r s = COrderSpec.compare exec pos r' s' := by
  induction pos with
  | nil => rfl
  | cons poe pos ih =>
    obtain ⟨hpoe,hpos⟩ := List.forall_mem_cons.mp hpos
    simp only [COrderSpec.compare,foldr_cons,hr hpoe,hs hpoe]
    exact congrArg _ (ih hpos)

theorem arrange_cast {m n : ℕ} (h : m = n) (cmp : Fin m → Fin m → Ordering)
    (cmp' : Fin n → Fin n → Ordering) (hcmp : ∀ i j, cmp i j = cmp' (i.cast h) (j.cast h)) :
    (exec.arrange m cmp).map (Fin.cast h) = exec.arrange n cmp' := by
  subst h
  have heq : cmp = cmp' := funext fun i => funext fun j => hcmp i j
  rw [heq]
  exact map_id _

theorem aligned_arrangement {α α' : Type*} {R : α → α' → Prop} {X : List α} {Y : List α'}
    {cmp : α → α → Ordering} {cmp' : α' → α' → Ordering} (h : List.Forall₂ R X Y)
    (hcmp : ∀ a b a' b', R a b → R a' b' → cmp a a' = cmp' b b') :
    List.Forall₂ R (arrangement exec cmp X) (arrangement exec cmp' Y) := by
  unfold arrangement
  rw [← arrange_cast exec h.length_eq (fun i j => cmp (X.get i) (X.get j))
    (fun i j => cmp' (Y.get i) (Y.get j)) fun i j => ?_]
  · exact aligned_map_get h _
  · exact hcmp _ _ _ _ (h.get i.isLt (h.length_eq ▸ i.isLt)) (h.get j.isLt (h.length_eq ▸ j.isLt))

theorem mem_arrangement {α : Type*} {cmp : α → α → Ordering} {X : List α} {a : α} :
    a ∈ arrangement exec cmp X ↔ a ∈ X := by
  rw [arrangement,List.mem_map]
  constructor
  · rintro ⟨i,_,rfl⟩
    exact X.get_mem i
  · intro ha
    obtain ⟨i,rfl⟩ := get_of_mem ha
    exact ⟨i,(exec.arrange_perm _ _).mem_iff.mpr (mem_finRange i),rfl⟩

section

variable {α α' : Type*} {R : α → α' → Prop} {X : List α} {Y : List α'}
  {same : α → α → Bool} {same' : α' → α' → Bool}

theorem aligned_representatives (h : List.Forall₂ R X Y)
    (hsame : ∀ a b a' b', R a b → R a' b' → same a a' = same' b b') :
    List.Forall₂ R (representatives same X) (representatives same' Y) := by
  induction h with
  | nil => exact .nil
  | @cons a b X Y hab _ ih =>
    have hany : (representatives same X).any (same a) = (representatives same' Y).any (same' b) :=
      any_eq_of_aligned ih fun a' b' => hsame a b a' b' hab
    simp only [representatives,hany]
    split
    · exact ih
    · exact .cons hab ih

theorem of_mem_representatives {a : α} (h : a ∈ representatives same X) : a ∈ X := by
  induction X with
  | nil => exact h
  | cons b X ih =>
    rw [representatives] at h
    split at h
    · exact List.mem_cons_of_mem _ (ih h)
    · rcases List.mem_cons.mp h with rfl | h
      · exact mem_cons_self
      · exact List.mem_cons_of_mem _ (ih h)

theorem representatives_congr {other : α → α → Bool} (h : ∀ a ∈ X, ∀ b ∈ X, same a b = other a b) :
    representatives same X = representatives other X := by
  have hali : List.Forall₂ (fun a b => a = b ∧ a ∈ X) X X :=
    forall₂_same.mpr fun a ha => ⟨rfl,ha⟩
  have heq : List.Forall₂ _ (representatives same X) (representatives other X) :=
    aligned_representatives hali
    (by rintro a _ a' _ ⟨rfl,ha⟩ ⟨rfl,ha'⟩; exact h a ha a' ha')
  exact forall₂_eq_eq_eq ▸ heq.imp fun _ _ hab => hab.1

end

variable {X Y : List (Row ℕ (CDatum β))} {env env' : Row ℕ (CDatum β)}
  {arguments arguments' : Row ℕ (CDatum β) → List (Option (CDatum β))}
  {isMatch isMatch' : Row ℕ (CDatum β) → Bool} {joinType : JoinType} {left right : Finset ℕ}
  {pos : COrderSpec} {pwf : CWindowFrame} {offset count : Option ℕ} {pdrgpcr columns : List ℕ}
  {functions : List (CAggFunc β)} {windowFunctions : List (CWindowFunc β)}
  {leading leading' trailing trailing' : Row ℕ (CDatum β) → Option (CDatum β)}

theorem alike_groupRows [DecidableEq β] (henv : Set.EqOn env env' C) (h : Alike C X Y)
    (hcols : ∀ c ∈ pdrgpcr, c ∈ C) (hargs : ∀ r s, Set.EqOn r s C → arguments r = arguments' s) :
    Alike C (groupRows env pdrgpcr columns functions arguments X)
      (groupRows env' pdrgpcr columns functions arguments' Y) := by
  have hsame (a b a' b' : Row ℕ (CDatum β)) (ha : Set.EqOn a b C) (ha' : Set.EqOn a' b' C) :
      sameOn pdrgpcr a a' = sameOn pdrgpcr b b' := by
    rw [sameOn,sameOn,tuple_eq ha hcols,tuple_eq ha' hcols]
  unfold groupRows
  split_ifs
  · rw [map_eq_of_aligned h hargs]
    exact .cons (eqOn_assign henv _ _) .nil
  · refine aligned_map (aligned_representatives h hsame) fun rep rep' hrep => ?_
    have hg : Alike C (X.filter (sameOn pdrgpcr rep)) (Y.filter (sameOn pdrgpcr rep')) :=
      aligned_filter h fun a b hab => hsame _ _ _ _ hrep hab
    rw [map_eq_of_aligned hg hargs]
    exact eqOn_assign (eqOn_scope hrep henv fun _ _ => Iff.rfl) _ _

theorem alike_windowRows (h : Alike C X Y) (hpos : ∀ poe ∈ pos, poe.colref ∈ C)
    (hlea : ∀ r s, Set.EqOn r s C → leading r = leading' s)
    (htra : ∀ r s, Set.EqOn r s C → trailing r = trailing' s)
    (hargs : ∀ r s, Set.EqOn r s C → arguments r = arguments' s) :
    Alike C (windowRows exec pos pwf leading trailing columns windowFunctions arguments X)
      (windowRows exec pos pwf leading' trailing' columns windowFunctions arguments' Y) := by
  have hcmp (a b a' b' : Row ℕ (CDatum β)) (ha : Set.EqOn a b C) (ha' : Set.EqOn a' b' C) :
      COrderSpec.compare exec pos a a' = COrderSpec.compare exec pos b b' :=
    compare_eq exec hpos ha ha'
  have hso := aligned_arrangement exec h hcmp
  have horder := map_eq_of_aligned hso fun a b hab =>
    map_eq_of_aligned hso fun a' b' hab' => hcmp a b a' b' hab hab'
  have hkeys : frameKeys pos pwf (arrangement exec (COrderSpec.compare exec pos) X) =
      frameKeys pos pwf (arrangement exec (COrderSpec.compare exec pos) Y) := by
    unfold frameKeys
    split_ifs
    · split
      · exact map_eq_of_aligned hso fun a b hab => hab (hpos _ mem_cons_self)
      · rfl
    · rfl
  unfold windowRows
  simp only [horder,hkeys,map_eq_of_aligned hso hargs]
  refine aligned_mapIdx hso fun i r s hrs => ?_
  rw [hlea r s hrs,htra r s hrs]
  exact eqOn_assign hrs _ _

theorem alike_limitRows (h : Alike C X Y) (hpos : ∀ poe ∈ pos, poe.colref ∈ C) :
    Alike C (limitRows exec pos offset count X) (limitRows exec pos offset count Y) := by
  have hso := forall₂_drop (offset.getD 0)
    (aligned_arrangement exec h fun a b a' b' ha ha' => compare_eq exec hpos ha ha')
  unfold limitRows
  cases count with
  | none => exact hso
  | some n => exact forall₂_take n hso

theorem alike_joinRows {left' right' : Finset ℕ} {X' Y' : List (Row ℕ (CDatum β))}
    (hX : Alike C X X') (hY : Alike C Y Y') (hleft : ∀ c ∈ C, c ∈ left ↔ c ∈ left')
    (hr : ∀ c ∈ C, c ∈ right ↔ c ∈ right') (hm : ∀ r s, Set.EqOn r s C → isMatch r = isMatch' s) :
    Alike C (joinRows joinType isMatch left right X Y)
      (joinRows joinType isMatch' left' right' X' Y') := by
  have hsc (y y' x x' : Row ℕ (CDatum β)) (hy : Set.EqOn y y' C) (hx : Set.EqOn x x' C) :
      Set.EqOn (y.scope right x) (y'.scope right' x') C := eqOn_scope hy hx hr
  have hj (x x' : Row ℕ (CDatum β)) (hx : Set.EqOn x x' C) :
      Alike C (joined isMatch right x Y) (joined isMatch' right' x' Y') :=
    aligned_filter (aligned_map hY fun y y' hy => hsc y y' x x' hy hx) hm
  have hemp (x x' : Row ℕ (CDatum β)) (hx : Set.EqOn x x' C) :
      (joined isMatch right x Y).isEmpty = (joined isMatch' right' x' Y').isEmpty :=
    isEmpty_eq_of_aligned (hj x x' hx)
  have hnull (y y' : Row ℕ (CDatum β)) (hy : Set.EqOn y y' C) :
      Set.EqOn (Row.null.scope left y) (Row.null.scope left' y') C :=
    eqOn_scope (fun _ _ => rfl) hy hleft
  have hout : Alike C
      (X.flatMap fun x => if (joined isMatch right x Y).isEmpty then [Row.null.scope right x]
        else joined isMatch right x Y)
      (X'.flatMap fun x => if (joined isMatch' right' x Y').isEmpty then [Row.null.scope right' x]
        else joined isMatch' right' x Y') := by
    refine aligned_flatMap hX fun x x' hx => ?_
    rw [hemp x x' hx]
    split
    · exact .cons (eqOn_scope (fun _ _ => rfl) hx hr) .nil
    · exact hj x x' hx
  cases joinType with
  | inner => exact aligned_flatMap hX hj
  | leftOuter => exact hout
  | rightOuter =>
    refine aligned_flatMap hY fun (y y' : Row ℕ _) hy => ?_
    have hpa : Alike C ((X.map fun x => y.scope right x).filter isMatch)
        ((X'.map fun x => y'.scope right' x).filter isMatch') :=
      aligned_filter (aligned_map hX fun x x' hx => hsc y y' x x' hy hx) hm
    simp only [isEmpty_eq_of_aligned hpa]
    split
    · exact .cons (hnull y y' hy) .nil
    · exact hpa
  | fullOuter =>
    refine rel_append hout (aligned_map (aligned_filter hY fun y y' hy => ?_) hnull)
    rw [any_eq_of_aligned hX fun x x' hx => hm _ _ (hsc y y' x x' hy hx)]
  | leftSemi => exact aligned_filter hX fun x x' hx => by rw [hemp x x' hx]
  | leftAntiSemi | leftAntiSemiNotIn => exact aligned_filter hX hemp

/-! ### Operators with functions that agree on the rows -/

/-! ### Columns that are not output -/

variable {r : Row ℕ (CDatum β)} {c : ℕ}

theorem assign_of_notMem (values : List (Option (CDatum β)))
    (h : c ∉ columns) : r.assign columns values c = r c := if_neg h

theorem scope_of_notMem {A : Finset ℕ} (outer : Row ℕ (CDatum β)) (h : c ∉ A) :
    r.scope A outer c = outer c := if_neg h

theorem scope_of_mem {A : Finset ℕ} (outer : Row ℕ (CDatum β)) (h : c ∈ A) :
    r.scope A outer c = r c := if_pos h

theorem outside_groupRows [DecidableEq β]
    (hr : r ∈ groupRows env pdrgpcr columns functions arguments X) (hc : c ∉ columns)
    (hX : c ∈ pdrgpcr → ∀ x ∈ X, x c = env c) : r c = env c := by
  unfold groupRows at hr
  split_ifs at hr
  · rw [List.mem_singleton.mp hr,assign_of_notMem _ hc]
  · obtain ⟨rep,hrep,rfl⟩ := List.mem_map.mp hr
    rw [assign_of_notMem _ hc]
    by_cases hmem : c ∈ pdrgpcr
    · rw [scope_of_mem _ (mem_toFinset.mpr hmem)]
      exact hX hmem rep (of_mem_representatives hrep)
    · rw [scope_of_notMem _ fun h => hmem (mem_toFinset.mp h)]

theorem outside_windowRows
    (hr : r ∈ windowRows exec pos pwf leading trailing columns windowFunctions arguments X)
    (hc : c ∉ columns) : ∃ x ∈ X, r c = x c := by
  obtain ⟨i,hi,rfl⟩ := mem_mapIdx.mp hr
  exact ⟨_,(mem_arrangement exec).mp (getElem_mem hi),assign_of_notMem _ hc⟩

theorem mem_of_mem_limitRows (hr : r ∈ limitRows exec pos offset count X) : r ∈ X := by
  unfold limitRows at hr
  cases count with
  | none => exact (mem_arrangement exec).mp (mem_of_mem_drop hr)
  | some n => exact (mem_arrangement exec).mp (mem_of_mem_drop (mem_of_mem_take hr))

theorem outside_joinRows (hr : r ∈ joinRows joinType isMatch left right X Y)
    (hc : c ∉ joinType.outputColumns left right) (hX : c ∉ left → ∀ x ∈ X, x c = env c)
    (hY : c ∉ right → ∀ y ∈ Y, y c = env c) : r c = env c := by
  have hj (hleft : c ∉ left) (hrt : c ∉ right) {x : Row ℕ (CDatum β)} (hx : x ∈ X)
      (h : r ∈ joined isMatch right x Y) : r c = env c := by
    obtain ⟨y,_,rfl⟩ := List.mem_map.mp (mem_of_mem_filter h)
    rw [scope_of_notMem _ hrt,hX hleft x hx]
  have hout (hleft : c ∉ left) (hrt : c ∉ right)
      (h : r ∈ X.flatMap fun x => if (joined isMatch right x Y).isEmpty then
        [Row.null.scope right x] else joined isMatch right x Y) : r c = env c := by
    obtain ⟨x,hx,h⟩ := mem_flatMap.mp h
    split at h
    · rw [List.mem_singleton.mp h,scope_of_notMem _ hrt,hX hleft x hx]
    · exact hj hleft hrt hx h
  cases joinType with
  | inner =>
    obtain ⟨hleft,hrt⟩ := not_or.mp (mem_union.not.mp hc)
    obtain ⟨x,hx,h⟩ := mem_flatMap.mp hr
    exact hj hleft hrt hx h
  | leftOuter =>
    obtain ⟨hleft,hrt⟩ := not_or.mp (mem_union.not.mp hc)
    exact hout hleft hrt hr
  | rightOuter =>
    obtain ⟨hleft,hrt⟩ := not_or.mp (mem_union.not.mp hc)
    obtain ⟨y,hy,h⟩ := mem_flatMap.mp hr
    simp only at h
    split at h
    · rw [List.mem_singleton.mp h,scope_of_notMem _ hleft,hY hrt y hy]
    · obtain ⟨x,hx,rfl⟩ := List.mem_map.mp (mem_of_mem_filter h)
      rw [scope_of_notMem _ hrt,hX hleft x hx]
  | fullOuter =>
    obtain ⟨hleft,hrt⟩ := not_or.mp (mem_union.not.mp hc)
    rcases mem_append.mp hr with h | h
    · exact hout hleft hrt h
    · obtain ⟨y,hy,rfl⟩ := List.mem_map.mp h
      rw [scope_of_notMem _ hleft,hY hrt y (mem_of_mem_filter hy)]
  | leftSemi | leftAntiSemi | leftAntiSemiNotIn => exact hX hc r (mem_of_mem_filter hr)

theorem CLogicalTree.rows_outside [DecidableEq β] :
    (t : CLogicalTree β) → (env : Row ℕ (CDatum β)) → ∀ r ∈ t.rows exec env,
      ∀ c ∉ t.outputColumns, r c = env c
  | .get _ _, env, r, hr, c, hc | .setOp _ _ _ _, env, r, hr, c, hc => by
    rw [CLogicalTree.rows] at hr
    obtain ⟨tuple,_,rfl⟩ := List.mem_map.mp hr
    exact assign_of_notMem _ fun h => hc (mem_toFinset.mpr h)
  | .select child _, env, r, hr, c, hc => by
    rw [CLogicalTree.rows] at hr
    exact rows_outside child env r (mem_of_mem_filter hr) c hc
  | .project child _ _, env, r, hr, c, hc => by
    rw [CLogicalTree.rows] at hr
    obtain ⟨x,hx,rfl⟩ := List.mem_map.mp hr
    rw [CLogicalTree.outputColumns,mem_union,not_or,mem_toFinset] at hc
    rw [assign_of_notMem _ hc.2]
    exact rows_outside child env x hx c hc.1
  | .gbAgg child pdrgpcr columns _ _, env, r, hr, c, hc => by
    rw [CLogicalTree.rows] at hr
    rw [CLogicalTree.outputColumns,mem_union,not_or,mem_inter,not_and,
      mem_toFinset,mem_toFinset] at hc
    exact outside_groupRows hr hc.2 fun hmem x hx =>
      rows_outside child env x hx c (hc.1 hmem)
  | .sequenceProject child _ _ _ _ _ columns _ _, env, r, hr, c, hc => by
    rw [CLogicalTree.rows] at hr
    rw [CLogicalTree.outputColumns,mem_union,not_or,mem_toFinset] at hc
    obtain ⟨rep,_,hwin⟩ := mem_flatMap.mp hr
    obtain ⟨x,hx,heq⟩ := outside_windowRows exec hwin hc.2
    rw [heq]
    exact rows_outside child env x (mem_of_mem_filter hx) c hc.1
  | .limit child _ _ _ _, env, r, hr, c, hc => by
    rw [CLogicalTree.rows] at hr
    exact rows_outside child env r (mem_of_mem_limitRows exec hr) c hc
  | .join _ left right _, env, r, hr, c, hc => by
    rw [CLogicalTree.rows] at hr
    exact outside_joinRows hr hc (fun hleft x hx => rows_outside left env x hx c hleft)
      fun hrt y hy => rows_outside right env y hy c hrt

end

/-! ### Expressions that cannot be told apart -/

section

variable [DecidableEq β] (exec : CExecution β) (C : Set ℕ)

def CScalarTree.Interchangeable (e' e : CScalarTree β) : Prop :=
  ∀ r' r, Set.EqOn r' r C → e'.eval exec r' = e.eval exec r

/-- Below outer rows that agree on the columns the expressions have rows that
agree on them, and they output the same of these columns. -/
structure CLogicalTree.Interchangeable (t' t : CLogicalTree β) : Prop where
  outputColumns : ∀ c ∈ C, c ∈ t'.outputColumns ↔ c ∈ t.outputColumns
  rows : ∀ env' env, Set.EqOn env' env C → Alike C (t'.rows exec env') (t.rows exec env)

variable {exec C}

theorem evalAll_of_interchangeable {es' es : List (CScalarTree β)}
    (h : List.Forall₂ (CScalarTree.Interchangeable exec C) es' es) {r' r : Row ℕ (CDatum β)}
    (hr : Set.EqOn r' r C) : evalAll exec es' r' = evalAll exec es r := by
  induction h with
  | nil => simp only [evalAll]
  | cons he _ ih => rw [evalAll,evalAll,he r' r hr,ih]

theorem childTuples_of_interchangeable {ts' ts : List (CLogicalTree β)}
    (h : List.Forall₂ (CLogicalTree.Interchangeable exec C) ts' ts) {env' env : Row ℕ (CDatum β)}
    (henv : Set.EqOn env' env C) (inputs : List (List ℕ))
    (hins : ∀ input ∈ inputs, ∀ c ∈ input, c ∈ C) :
    childTuples exec inputs ts' env' = childTuples exec inputs ts env := by
  induction h generalizing inputs with
  | nil => cases inputs <;> simp only [childTuples]
  | cons ht _ ih =>
    cases inputs with
    | nil => simp only [childTuples]
    | cons input inputs =>
      obtain ⟨hin,hins⟩ := List.forall_mem_cons.mp hins
      rw [childTuples,childTuples,ih inputs hins]
      exact congrArg (· :: _)
        (map_eq_of_aligned (ht.rows env' env henv) fun r s hrs => tuple_eq hrs hin)

namespace CScalarTree.Interchangeable

variable {colref : ℕ} {inner' inner : CLogicalTree β}

theorem ident (h : colref ∈ C) :
    Interchangeable (β := β) exec C (.ident colref) (.ident colref) := by
  intro r' r hr
  rw [eval,eval]
  exact hr h

theorem const (datum : Option (CDatum β)) :
    Interchangeable exec C (.const datum) (.const datum) := by
  intro r' r _
  rw [eval,eval]

theorem node {pop : Unnesting.CScalarOp β} {children' children : List (CScalarTree β)}
    (h : List.Forall₂ (CScalarTree.Interchangeable exec C) children' children) :
    Interchangeable exec C (.node pop children') (.node pop children) := by
  intro r' r hr
  rw [eval,eval,evalAll_of_interchangeable h hr]

theorem subquery (hcol : colref ∈ C) (h : inner'.Interchangeable exec C inner) :
    Interchangeable exec C (.subquery colref inner') (.subquery colref inner) := by
  intro r' r hr
  rw [eval,eval,map_eq_of_aligned (h.rows r' r hr) fun y' y hy => hy hcol]

theorem existential {negated : Bool} (h : inner'.Interchangeable exec C inner) :
    Interchangeable exec C (.existential negated inner')
      (.existential negated inner) := by
  intro r' r hr
  rw [eval,eval,isEmpty_eq_of_aligned (h.rows r' r hr)]

theorem quantified {quantifier : Unnesting.EQuantifier} {op : Unnesting.CScalarCmp β}
    {scalar' scalar : CScalarTree β} (hcol : colref ∈ C)
    (h : inner'.Interchangeable exec C inner) (hsc : scalar'.Interchangeable exec C scalar) :
    Interchangeable exec C (.quantified quantifier op colref inner' scalar')
      (.quantified quantifier op colref inner scalar) := by
  intro r' r hr
  rw [eval,eval,hsc r' r hr,map_eq_of_aligned (h.rows r' r hr) fun y' y hy => by rw [hy hcol]]

end CScalarTree.Interchangeable

namespace CLogicalTree.Interchangeable

variable {child' child left' left right' right : CLogicalTree β}
  {predicate' predicate : CScalarTree β} {pdrgpcrOutput columns : List ℕ}
  {arguments' arguments : List (CScalarTree β)}

theorem get {table : ℕ} :
    Interchangeable (β := β) exec C (.get table pdrgpcrOutput)
      (.get table pdrgpcrOutput) where
  outputColumns _ _ := Iff.rfl
  rows env' env henv := by
    rw [CLogicalTree.rows,CLogicalTree.rows]
    exact aligned_map (forall₂_same.mpr fun tuple _ => rfl)
      fun tuple' tuple (h : tuple' = tuple) => h ▸ eqOn_assign henv _ _

section

variable (hchild : child'.Interchangeable exec C child)

include hchild

theorem select (hp : predicate'.Interchangeable exec C predicate) :
    Interchangeable exec C (.select child' predicate') (.select child predicate) where
  outputColumns := hchild.outputColumns
  rows env' env henv := by
    rw [CLogicalTree.rows,CLogicalTree.rows]
    exact aligned_filter (hchild.rows env' env henv) fun r' r hr => by rw [hp r' r hr]

theorem project {values' values : List (CScalarTree β)}
    (hvs : List.Forall₂ (CScalarTree.Interchangeable exec C) values' values) :
    Interchangeable exec C (.project child' columns values')
      (.project child columns values) where
  outputColumns c hc := by
    simp only [CLogicalTree.outputColumns,mem_union,hchild.outputColumns c hc]
  rows env' env henv := by
    rw [CLogicalTree.rows,CLogicalTree.rows]
    refine aligned_map (hchild.rows env' env henv) fun r' r hr => ?_
    rw [evalAll_of_interchangeable hvs hr]
    exact eqOn_assign hr _ _

theorem gbAgg {pdrgpcr : List ℕ} {functions : List (CAggFunc β)} (hcols : ∀ c ∈ pdrgpcr, c ∈ C)
    (hargs : List.Forall₂ (CScalarTree.Interchangeable exec C) arguments' arguments) :
    Interchangeable exec C (.gbAgg child' pdrgpcr columns functions arguments')
      (.gbAgg child pdrgpcr columns functions arguments) where
  outputColumns c hc := by
    simp only [CLogicalTree.outputColumns,mem_union,mem_inter,hchild.outputColumns c hc]
  rows env' env henv := by
    rw [CLogicalTree.rows,CLogicalTree.rows]
    exact alike_groupRows henv (hchild.rows env' env henv) hcols fun r' r hr =>
      evalAll_of_interchangeable hargs hr

theorem sequenceProject {pds' pds : List (CScalarTree β)} {pos : COrderSpec} {pwf : CWindowFrame}
    {pexprLeading' pexprLeading pexprTrailing' pexprTrailing : CScalarTree β}
    {functions : List (CWindowFunc β)} (hpos : ∀ poe ∈ pos, poe.colref ∈ C)
    (hpds : List.Forall₂ (CScalarTree.Interchangeable exec C) pds' pds)
    (hlea : pexprLeading'.Interchangeable exec C pexprLeading)
    (htra : pexprTrailing'.Interchangeable exec C pexprTrailing)
    (hargs : List.Forall₂ (CScalarTree.Interchangeable exec C) arguments' arguments) :
    Interchangeable exec C
      (.sequenceProject child' pds' pos pwf pexprLeading' pexprTrailing' columns functions
        arguments')
      (.sequenceProject child pds pos pwf pexprLeading pexprTrailing columns functions
        arguments) where
  outputColumns c hc := by
    simp only [CLogicalTree.outputColumns,mem_union,hchild.outputColumns c hc]
  rows env' env henv := by
    have hX := hchild.rows env' env henv
    have hkey (r' r : Row ℕ (CDatum β)) (hr : Set.EqOn r' r C) :
        evalAll exec pds' r' = evalAll exec pds r := evalAll_of_interchangeable hpds hr
    rw [CLogicalTree.rows,CLogicalTree.rows]
    refine aligned_flatMap (aligned_representatives hX fun a b a' b' ha ha' => ?_)
      fun rep' rep hrep => ?_
    · rw [hkey a b ha,hkey a' b' ha']
    · refine alike_windowRows exec (aligned_filter hX fun r' r hr => ?_) hpos hlea htra
        fun r' r hr => evalAll_of_interchangeable hargs hr
      rw [hkey rep' rep hrep,hkey r' r hr]

theorem limit {pos : COrderSpec} {pexprOffset' pexprOffset pexprCount' pexprCount : CScalarTree β}
    {fHasCount : Bool} (hpos : ∀ poe ∈ pos, poe.colref ∈ C)
    (hoff : pexprOffset'.Interchangeable exec C pexprOffset)
    (hcnt : pexprCount'.Interchangeable exec C pexprCount) :
    Interchangeable exec C (.limit child' pos pexprOffset' fHasCount pexprCount')
      (.limit child pos pexprOffset fHasCount pexprCount) where
  outputColumns := hchild.outputColumns
  rows env' env henv := by
    rw [CLogicalTree.rows,CLogicalTree.rows,hoff env' env henv,hcnt env' env henv]
    exact alike_limitRows exec (hchild.rows env' env henv) hpos

end

theorem join {joinType : JoinType} (hleft : left'.Interchangeable exec C left)
    (hrt : right'.Interchangeable exec C right) (hp : predicate'.Interchangeable exec C predicate) :
    Interchangeable exec C (.join joinType left' right' predicate')
      (.join joinType left right predicate) where
  outputColumns c hc := by
    have hl := hleft.outputColumns c hc
    have hr := hrt.outputColumns c hc
    cases joinType <;>
      simp only [CLogicalTree.outputColumns,JoinType.outputColumns,mem_union,hl,hr]
  rows env' env henv := by
    rw [CLogicalTree.rows,CLogicalTree.rows]
    exact alike_joinRows (hleft.rows env' env henv) (hrt.rows env' env henv)
      hleft.outputColumns hrt.outputColumns fun r' r hr => by rw [hp r' r hr]

theorem setOp {op : ESetOp} {pdrgpdrgpcrInput : List (List ℕ)}
    {children' children : List (CLogicalTree β)}
    (hins : ∀ input ∈ pdrgpdrgpcrInput, ∀ c ∈ input, c ∈ C)
    (hchs : List.Forall₂ (CLogicalTree.Interchangeable exec C) children' children) :
    Interchangeable exec C (.setOp op pdrgpcrOutput pdrgpdrgpcrInput children')
      (.setOp op pdrgpcrOutput pdrgpdrgpcrInput children) where
  outputColumns _ _ := Iff.rfl
  rows env' env henv := by
    rw [CLogicalTree.rows,CLogicalTree.rows,childTuples_of_interchangeable hchs henv _ hins]
    exact aligned_map (forall₂_same.mpr fun tuple _ => rfl)
      fun tuple' tuple (h : tuple' = tuple) => h ▸ eqOn_assign henv _ _

theorem of_rows_eq {t' t s : CLogicalTree β} (h : t'.Interchangeable exec C t)
    (hcols : ∀ c ∈ C, c ∈ t.outputColumns ↔ c ∈ s.outputColumns)
    (hrows : ∀ env, t.rows exec env = s.rows exec env) : t'.Interchangeable exec C s where
  outputColumns c hc := (h.outputColumns c hc).trans (hcols c hc)
  rows env' env henv := by
    rw [← hrows]
    exact h.rows env' env henv

end CLogicalTree.Interchangeable

mutual

theorem CScalarTree.interchangeable :
    (e : CScalarTree β) → e.Within C → e.Interchangeable exec C e
  | .ident colref, h => .ident (h colref mem_cons_self)
  | .const datum, _ => .const datum
  | .node _ children, h => .node (withinAll_interchangeable children h.2)
  | .subquery colref inner, h =>
    .subquery (h.1 colref mem_cons_self) (inner.interchangeable h.2)
  | .existential _ inner, h => .existential (inner.interchangeable h.2)
  | .quantified _ _ colref inner scalar, h =>
    .quantified (h.1 colref mem_cons_self)
      (inner.interchangeable h.2.1)
      (scalar.interchangeable h.2.2)

theorem withinAll_interchangeable : (es : List (CScalarTree β)) → withinAll C es →
    List.Forall₂ (CScalarTree.Interchangeable exec C) es es
  | [], _ => .nil
  | e :: es, h =>
    .cons (e.interchangeable h.1) (withinAll_interchangeable es h.2)

theorem CLogicalTree.interchangeable :
    (t : CLogicalTree β) → t.Within C → t.Interchangeable exec C t
  | .get _ _, _ => .get
  | .select child predicate, h =>
    .select (child.interchangeable h.2.1) (predicate.interchangeable h.2.2)
  | .project child _ values, h =>
    .project (child.interchangeable h.2.1) (withinAll_interchangeable values h.2.2)
  | .gbAgg child _ _ _ arguments, h =>
    .gbAgg (child.interchangeable h.2.1) (fun c hc => h.1 c (mem_append_left _ hc))
      (withinAll_interchangeable arguments h.2.2)
  | .sequenceProject child pds _ _ pexprLeading pexprTrailing _ _ arguments, h =>
    .sequenceProject (child.interchangeable h.2.1)
      (fun _ hpoe => h.1 _ (mem_append_left _ (List.mem_map_of_mem hpoe)))
      (withinAll_interchangeable pds h.2.2.1)
      (pexprLeading.interchangeable h.2.2.2.1)
      (pexprTrailing.interchangeable h.2.2.2.2.1)
      (withinAll_interchangeable arguments h.2.2.2.2.2)
  | .limit child _ pexprOffset _ pexprCount, h =>
    .limit (child.interchangeable h.2.1) (fun _ hpoe => h.1 _ (List.mem_map_of_mem hpoe))
      (pexprOffset.interchangeable h.2.2.1)
      (pexprCount.interchangeable h.2.2.2)
  | .join _ left right predicate, h =>
    .join (left.interchangeable h.2.1)
      (right.interchangeable h.2.2.1)
      (predicate.interchangeable h.2.2.2)
  | .setOp _ _ _ children, h =>
    .setOp (fun input hin c hc => h.1 c (mem_append_right _ (mem_flatten.mpr ⟨input,hin,hc⟩)))
      (withinTrees_interchangeable children h.2)

theorem withinTrees_interchangeable : (ts : List (CLogicalTree β)) → withinTrees C ts →
    List.Forall₂ (CLogicalTree.Interchangeable exec C) ts ts
  | [], _ => .nil
  | t :: ts, h =>
    .cons (t.interchangeable h.1) (withinTrees_interchangeable ts h.2)

end

end

end PgOrca.Preprocess
