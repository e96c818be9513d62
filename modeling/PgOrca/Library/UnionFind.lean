import Mathlib

/-!
# Union-find with path halving

Looking up a root makes every second node of the path point to its grandparent. The length of the
path is the measure: halving never makes it longer, and a path meets no node twice.
-/

namespace PgOrca

open Finset

namespace UnionFind

/-- A node outside the table counts as a root. -/
def up (parent : List ℕ) (x : ℕ) : ℕ := parent.getD x x

/-- The loop `while (parent[x] != x)`, at most `fuel` rounds of it. -/
def findRootWithin : ℕ → List ℕ → ℕ → List ℕ × ℕ
  | 0, parent, x => (parent, x)
  | fuel + 1, parent, x =>
    if up parent x = x then (parent, x)
    else
      let top := up parent (up parent x)
      findRootWithin fuel (parent.set x top) top

def findRoot (parent : List ℕ) (x : ℕ) : List ℕ × ℕ := findRootWithin parent.length parent x

/-- The root of `other` is put below the root of `first`. -/
def union (parent : List ℕ) (first other : ℕ) : List ℕ :=
  let (parent, firstRoot) := findRoot parent first
  let (parent, otherRoot) := findRoot parent other
  if firstRoot = otherRoot then parent else parent.set otherRoot firstRoot

inductive Path (parent : List ℕ) : ℕ → ℕ → ℕ → Prop
  | root {x : ℕ} : up parent x = x → Path parent 0 x x
  | step {k x r : ℕ} : up parent x ≠ x → Path parent k (up parent x) r → Path parent (k + 1) x r

structure Forest (parent : List ℕ) : Prop where
  rooted : ∀ x, ∃ k r, Path parent k x r
  up_lt : ∀ x < parent.length, up parent x < parent.length

def HasRoot (parent : List ℕ) (x r : ℕ) : Prop := ∃ k, Path parent k x r

def Same (parent : List ℕ) (x y : ℕ) : Prop := ∃ r, HasRoot parent x r ∧ HasRoot parent y r

variable {parent parent' : List ℕ} {k k' x y r r' a b : ℕ}

theorem lt_length_of_up_ne (h : up parent x ≠ x) : x < parent.length := by
  by_contra hle
  rw [up,List.getD_eq_default _ _ (Nat.le_of_not_lt hle)] at h
  exact h rfl

theorem up_set (hx : x < parent.length) (v y : ℕ) :
    up (parent.set x v) y = if y = x then v else up parent y := by
  simp only [up,List.getD_eq_getElem?_getD,List.getElem?_set]
  by_cases hxy : y = x
  · subst hxy
    simp [hx]
  · simp [hxy,Ne.symm hxy]

namespace Path

theorem unique (h : Path parent k x r) (h' : Path parent k' x r') : k = k' ∧ r = r' := by
  induction h generalizing k' with
  | root hx =>
    cases h' with
    | root _ => exact ⟨rfl,rfl⟩
    | step hne _ => exact absurd hx hne
  | step hne _ ih =>
    cases h' with
    | root hx => exact absurd hx hne
    | step _ h' =>
      obtain ⟨hk,hr⟩ := ih h'
      exact ⟨congrArg (· + 1) hk,hr⟩

theorem isRoot (h : Path parent k x r) : up parent r = r := by
  induction h with
  | root hx => exact hx
  | step _ _ ih => exact ih

private theorem exists_nodes (h : Path parent k x r) :
    ∃ s : Finset ℕ, s.card = k ∧ s ⊆ range parent.length ∧
      ∀ y ∈ s, ∃ j ≤ k, Path parent j y r := by
  induction h with
  | root hx => exact ⟨∅,rfl,empty_subset _,fun y hy => absurd hy (notMem_empty y)⟩
  | @step k x r hne h ih =>
    obtain ⟨s,hcard,hsub,hpath⟩ := ih
    have hx : x ∉ s := by
      intro hmem
      obtain ⟨j,hj,hxj⟩ := hpath x hmem
      have := (hxj.unique (.step hne h)).1
      omega
    refine ⟨insert x s,?_,?_,?_⟩
    · rw [card_insert_of_notMem hx,hcard]
    · exact insert_subset (mem_range.mpr (lt_length_of_up_ne hne)) hsub
    · intro y hy
      rcases mem_insert.mp hy with rfl | hy
      · exact ⟨k + 1,le_rfl,.step hne h⟩
      · obtain ⟨j,hj,hyj⟩ := hpath y hy
        exact ⟨j,Nat.le_succ_of_le hj,hyj⟩

theorem le_length (h : Path parent k x r) : k ≤ parent.length := by
  obtain ⟨s,hcard,hsub,_⟩ := h.exists_nodes
  calc k = s.card := hcard.symm
    _ ≤ (range parent.length).card := card_le_card hsub
    _ = parent.length := card_range _

end Path

/-! ## Halving a path -/

/-- The table changed, but every node kept its root and came no farther away from it. -/
structure Halved (parent parent' : List ℕ) : Prop where
  length_eq : parent'.length = parent.length
  path : ∀ {k x r : ℕ}, Path parent k x r → ∃ k' ≤ k, Path parent' k' x r
  up_lt : (∀ x < parent.length, up parent x < parent.length) →
    ∀ x < parent'.length, up parent' x < parent'.length

theorem Halved.refl (parent : List ℕ) : Halved parent parent :=
  ⟨rfl,fun h => ⟨_,le_rfl,h⟩,id⟩

theorem Halved.trans {parent'' : List ℕ} (h : Halved parent parent')
    (h' : Halved parent' parent'') : Halved parent parent'' := by
  refine ⟨h'.length_eq.trans h.length_eq,fun hpath => ?_,fun hlt => h'.up_lt (h.up_lt hlt)⟩
  obtain ⟨k',hk',hpath'⟩ := h.path hpath
  obtain ⟨k'',hk'',hpath''⟩ := h'.path hpath'
  exact ⟨k'',hk''.trans hk',hpath''⟩

theorem halved_set (hx : up parent x ≠ x) :
    Halved parent (parent.set x (up parent (up parent x))) := by
  have hset := up_set (lt_length_of_up_ne hx) (up parent (up parent x))
  refine ⟨List.length_set,@fun k => ?_,?_⟩
  case refine_2 =>
    intro hlt y hy
    rw [List.length_set] at hy ⊢
    rw [hset]
    split
    · exact hlt _ (hlt _ (lt_length_of_up_ne hx))
    · exact hlt y hy
  -- the path from the grandparent is two steps shorter, hence strong induction on the length
  induction k using Nat.strongRecOn with
  | ind k ih =>
    intro y r h
    cases h with
    | root hy =>
      refine ⟨0,le_rfl,.root ?_⟩
      have hne : y ≠ x := fun heq => hx (heq ▸ hy)
      rw [hset,if_neg hne]
      exact hy
    | @step k y r hy h =>
      by_cases hyx : y = x
      · subst hyx
        have hup : up (parent.set y (up parent (up parent y))) y = up parent (up parent y) := by
          rw [hset,if_pos rfl]
        cases hpar : h with
        | root hroot =>
          refine ⟨1,le_rfl,.step ?_ ?_⟩
          · rw [hup,hroot]
            exact hy
          · have hkept := hset (up parent y)
            rw [if_neg hy,hroot] at hkept
            rw [hup,hroot]
            exact .root hkept
        | @step k _ _ _ h' =>
          obtain ⟨k',hk',hpath⟩ := ih k (by omega) h'
          refine ⟨k' + 1,by omega,.step ?_ ?_⟩
          · rw [hup]
            intro heq
            have := (h'.unique (heq.symm ▸ Path.step hy h)).1
            omega
          · rw [hup]
            exact hpath
      · obtain ⟨k',hk',hpath⟩ := ih k (by omega) h
        refine ⟨k' + 1,by omega,.step ?_ ?_⟩
        · rw [hset,if_neg hyx]
          exact hy
        · rw [hset,if_neg hyx]
          exact hpath

theorem findRootWithin_spec {fuel : ℕ} (h : Path parent k x r) (hk : k ≤ fuel) :
    (findRootWithin fuel parent x).2 = r ∧ Halved parent (findRootWithin fuel parent x).1 := by
  induction fuel generalizing parent k x with
  | zero =>
    obtain rfl : k = 0 := Nat.le_zero.mp hk
    cases h with
    | root _ => exact ⟨rfl,Halved.refl parent⟩
  | succ fuel ih =>
    unfold findRootWithin
    split
    case isTrue hx =>
      cases h with
      | root _ => exact ⟨rfl,Halved.refl parent⟩
      | step hne _ => exact absurd hx hne
    case isFalse hx =>
      have hhv := halved_set hx
      have hup : up (parent.set x (up parent (up parent x))) x = up parent (up parent x) := by
        rw [up_set (lt_length_of_up_ne hx),if_pos rfl]
      obtain ⟨k',hk',hpath⟩ := hhv.path h
      cases hpath with
      | root _ => exact absurd h.isRoot hx
      | @step k' _ _ _ hpath =>
        rw [hup] at hpath
        obtain ⟨hroot,hrest⟩ := ih hpath (by omega)
        exact ⟨hroot,hhv.trans hrest⟩

theorem findRoot_spec (h : Path parent k x r) :
    (findRoot parent x).2 = r ∧ Halved parent (findRoot parent x).1 :=
  findRootWithin_spec h h.le_length

theorem Halved.forest (h : Halved parent parent') (hf : Forest parent) : Forest parent' := by
  refine ⟨fun x => ?_,h.up_lt hf.up_lt⟩
  obtain ⟨k,r,hpath⟩ := hf.rooted x
  obtain ⟨k',_,hpath'⟩ := h.path hpath
  exact ⟨k',r,hpath'⟩

theorem HasRoot.unique (h : HasRoot parent x r) (h' : HasRoot parent x r') : r = r' := by
  obtain ⟨_,h⟩ := h
  obtain ⟨_,h'⟩ := h'
  exact (h.unique h').2

theorem Halved.hasRoot (h : Halved parent parent') (hx : HasRoot parent x r) :
    HasRoot parent' x r := by
  obtain ⟨k,hx⟩ := hx
  obtain ⟨k',_,hx'⟩ := h.path hx
  exact ⟨k',hx'⟩

theorem Forest.exists_hasRoot (hf : Forest parent) (x : ℕ) : ∃ r, HasRoot parent x r := by
  obtain ⟨k,r,h⟩ := hf.rooted x
  exact ⟨r,k,h⟩

theorem same_iff (hx : HasRoot parent x a) (hy : HasRoot parent y b) : Same parent x y ↔ a = b := by
  constructor
  · intro ⟨r,hxr,hyr⟩
    exact (hx.unique hxr).trans (hyr.unique hy)
  · intro h
    exact ⟨a,hx,h ▸ hy⟩

theorem HasRoot.iff_same (h : HasRoot parent x r) : HasRoot parent y r ↔ Same parent x y :=
  ⟨fun hy => ⟨r,h,hy⟩,fun ⟨_,hx,hy⟩ => h.unique hx ▸ hy⟩

/-! ## Joining two classes -/

theorem Path.link (hb : b < parent.length) (ha : up parent a = a) (hab : a ≠ b)
    (hbroot : up parent b = b) (h : Path parent k x r) :
    HasRoot (parent.set b a) x (if r = b then a else r) := by
  have hset := up_set hb a
  have haroot : up (parent.set b a) a = a := by rw [hset,if_neg hab,ha]
  induction h with
  | @root x hx =>
    by_cases hxb : x = b
    · subst hxb
      rw [if_pos rfl]
      refine ⟨1,.step ?_ ?_⟩
      · rw [hset,if_pos rfl]
        exact hab
      · rw [hset,if_pos rfl]
        exact .root haroot
    · rw [if_neg hxb]
      refine ⟨0,.root ?_⟩
      rw [hset,if_neg hxb]
      exact hx
  | @step k x r hx _ ih =>
    obtain ⟨j,hpath⟩ := ih
    have hxb : x ≠ b := fun heq => hx (heq ▸ hbroot)
    refine ⟨j + 1,.step ?_ ?_⟩
    · rw [hset,if_neg hxb]
      exact hx
    · rw [hset,if_neg hxb]
      exact hpath

theorem HasRoot.lt_length (hf : Forest parent) (hx : x < parent.length) (h : HasRoot parent x r) :
    r < parent.length := by
  obtain ⟨k,h⟩ := h
  induction h with
  | root _ => exact hx
  | step _ _ ih => exact ih (hf.up_lt _ hx)

theorem HasRoot.isRoot (h : HasRoot parent x r) : up parent r = r := by
  obtain ⟨_,h⟩ := h
  exact h.isRoot

theorem forest_set (hf : Forest parent) (hb : b < parent.length) (hab : a ≠ b)
    (ha : a < parent.length) (haroot : up parent a = a) (hbroot : up parent b = b) :
    Forest (parent.set b a) := by
  constructor
  · intro x
    obtain ⟨k,r,hpath⟩ := hf.rooted x
    obtain ⟨j,hlink⟩ := hpath.link hb haroot hab hbroot
    exact ⟨j,_,hlink⟩
  · intro x hx
    rw [List.length_set] at hx ⊢
    rw [up_set hb]
    split
    · exact ha
    · exact hf.up_lt x hx

theorem union_spec (hf : Forest parent) (ha : a < parent.length) (hb : b < parent.length) :
    ∃ first other, HasRoot parent a first ∧ HasRoot parent b other ∧
      Forest (union parent a b) ∧ (union parent a b).length = parent.length ∧
      ∀ {x r : ℕ}, HasRoot parent x r →
        HasRoot (union parent a b) x (if r = other then first else r) := by
  obtain ⟨k,first,hfst⟩ := hf.rooted a
  obtain ⟨hfind,hhv⟩ := findRoot_spec hfst
  obtain ⟨other,hoth⟩ := hf.exists_hasRoot b
  obtain ⟨j,hoth'⟩ := hhv.hasRoot hoth
  obtain ⟨hfind',hhv'⟩ := findRoot_spec hoth'
  have hboth := hhv.trans hhv'
  have hfo := hboth.forest hf
  refine ⟨first,other,⟨k,hfst⟩,hoth,?_⟩
  have hun : union parent a b =
      if first = other then (findRoot (findRoot parent a).1 b).1
      else (findRoot (findRoot parent a).1 b).1.set other first := by
    unfold union
    dsimp only
    rw [hfind,hfind']
  rw [hun]
  split
  case isTrue heq =>
    refine ⟨hfo,hboth.length_eq,fun {x r} hx => ?_⟩
    have hsame : (if r = other then first else r) = r := by
      split
      case isTrue h => exact heq.trans h.symm
      case isFalse => rfl
    rw [hsame]
    exact hboth.hasRoot hx
  case isFalse hne =>
    have hfst' := hboth.hasRoot ⟨k,hfst⟩
    have hoth'' := hboth.hasRoot hoth
    have hlen := hboth.length_eq
    have hfir := hfst'.lt_length hfo (hlen ▸ ha)
    have hothe := hoth''.lt_length hfo (hlen ▸ hb)
    refine ⟨forest_set hfo hothe hne hfir hfst'.isRoot hoth''.isRoot,?_,?_⟩
    · rw [List.length_set,hlen]
    · intro x r hx
      obtain ⟨i,hx'⟩ := hboth.hasRoot hx
      exact hx'.link hothe hfst'.isRoot hne hoth''.isRoot

theorem same_union (hf : Forest parent) (ha : a < parent.length) (hb : b < parent.length) :
    Same (union parent a b) x y ↔
      Same parent x y ∨ Same parent x a ∧ Same parent b y ∨ Same parent x b ∧ Same parent a y := by
  obtain ⟨first,other,hfst,hoth,_,_,hroots⟩ := union_spec hf ha hb
  obtain ⟨r,hx⟩ := hf.exists_hasRoot x
  obtain ⟨s,hy⟩ := hf.exists_hasRoot y
  rw [same_iff (hroots hx) (hroots hy),same_iff hx hy,same_iff hx hfst,same_iff hoth hy,
    same_iff hx hoth,same_iff hfst hy]
  by_cases hr : r = other <;> by_cases hs : s = other
  · simp [hr,hs]
  · simp [hr,hs,Ne.symm hs]
  · simp [hr,hs,eq_comm]
  · simp only [hr,hs,if_false,Ne.symm hs,and_false,false_and,or_false]

/-! ## Joining along a list of pairs -/

open Relation

theorem Same.symm (h : Same parent x y) : Same parent y x := by
  obtain ⟨r,hx,hy⟩ := h
  exact ⟨r,hy,hx⟩

theorem Same.trans {z : ℕ} (h : Same parent x y) (h' : Same parent y z) : Same parent x z := by
  obtain ⟨r,hx,hy⟩ := h
  obtain ⟨r',hy',hz⟩ := h'
  exact ⟨r,hx,hy'.unique hy ▸ hz⟩

theorem Forest.same_self (hf : Forest parent) (x : ℕ) : Same parent x x := by
  obtain ⟨r,hx⟩ := hf.exists_hasRoot x
  exact ⟨r,hx,hx⟩

theorem Forest.same_of_eqvGen {R : ℕ → ℕ → Prop} (hf : Forest parent)
    (hR : ∀ a b, R a b → Same parent a b) (h : EqvGen R x y) : Same parent x y := by
  induction h with
  | rel a b hab => exact hR a b hab
  | refl a => exact hf.same_self a
  | symm _ _ _ ih => exact ih.symm
  | trans _ _ _ _ _ ih ih' => exact ih.trans ih'

def unions (parent : List ℕ) (pairs : List (ℕ × ℕ)) : List ℕ :=
  pairs.foldl (fun parent pair => union parent pair.1 pair.2) parent

theorem up_range (n x : ℕ) : up (List.range n) x = x := by
  rw [up]
  by_cases hx : x < n
  · rw [List.getD_eq_getElem _ _ (by rwa [List.length_range]),List.getElem_range]
  · rw [List.getD_eq_default _ _ (by rw [List.length_range]; omega)]

theorem forest_range (n : ℕ) : Forest (List.range n) :=
  ⟨fun x => ⟨0,x,.root (up_range n x)⟩,fun x hx => by rwa [up_range]⟩

theorem same_range {n : ℕ} : Same (List.range n) x y ↔ x = y :=
  same_iff ⟨0,.root (up_range n x)⟩ ⟨0,.root (up_range n y)⟩

theorem unions_spec (n : ℕ) (pairs : List (ℕ × ℕ)) (hlt : ∀ pair ∈ pairs, pair.1 < n ∧ pair.2 < n) :
    Forest (unions (List.range n) pairs) ∧ (unions (List.range n) pairs).length = n ∧
      ∀ x y, Same (unions (List.range n) pairs) x y ↔
        EqvGen (fun a b => (a, b) ∈ pairs) x y := by
  induction pairs using List.reverseRecOn with
  | nil =>
    refine ⟨forest_range n,List.length_range,fun x y => ⟨fun h => ?_,fun h => ?_⟩⟩
    · obtain rfl := same_range.mp h
      exact .refl x
    · exact (forest_range n).same_of_eqvGen (fun _ _ h => absurd h List.not_mem_nil) h
  | append_singleton pairs pair ih =>
    obtain ⟨hf,hlen,hsame⟩ := ih fun p hp => hlt p (List.mem_append_left _ hp)
    obtain ⟨ha,hb⟩ := hlt pair (List.mem_append_right _ (List.mem_singleton_self _))
    rw [← hlen] at ha hb
    have hstep : unions (List.range n) (pairs ++ [pair]) =
        union (unions (List.range n) pairs) pair.1 pair.2 := by
      rw [unions,List.foldl_append]
      rfl
    obtain ⟨_,_,_,_,hf',hlen',_⟩ := union_spec hf ha hb
    rw [hstep]
    refine ⟨hf',hlen'.trans hlen,fun x y => ⟨fun h => ?_,hf'.same_of_eqvGen fun u v huv => ?_⟩⟩
    · have hmono {u v : ℕ} (h : Same (unions (List.range n) pairs) u v) :
          EqvGen (fun a b => (a, b) ∈ pairs ++ [pair]) u v :=
        EqvGen.mono (fun _ _ => List.mem_append_left _) _ _ ((hsame u v).mp h)
      have hpair : EqvGen (fun a b => (a, b) ∈ pairs ++ [pair]) pair.1 pair.2 :=
        .rel _ _ (List.mem_append_right _ (List.mem_singleton_self _))
      rcases (same_union hf ha hb).mp h with h | ⟨h,h'⟩ | ⟨h,h'⟩
      · exact hmono h
      · exact .trans _ _ _ (hmono h) (.trans _ _ _ hpair (hmono h'))
      · exact .trans _ _ _ (hmono h) (.trans _ _ _ (.symm _ _ hpair) (hmono h'))
    · rw [same_union hf ha hb]
      rcases List.mem_append.mp huv with huv | huv
      · exact .inl ((hsame u v).mpr (.rel _ _ huv))
      · obtain rfl := List.mem_singleton.mp huv
        exact .inr (.inl ⟨hf.same_self u,hf.same_self v⟩)

/-! ## Listing the classes -/

/-- The class with this root gets `node`; a root met for the first time opens a class. -/
def addToClass (classes : List (ℕ × Finset ℕ)) (root node : ℕ) : List (ℕ × Finset ℕ) :=
  if ∃ c ∈ classes, c.1 = root then
    classes.map fun c => if c.1 = root then (c.1, insert node c.2) else c
  else classes ++ [(root, {node})]

def classStep (s : List ℕ × List (ℕ × Finset ℕ)) (node : ℕ) : List ℕ × List (ℕ × Finset ℕ) :=
  let (parent, root) := findRoot s.1 node
  (parent, addToClass s.2 root node)

def classes (parent : List ℕ) (n : ℕ) : List (Finset ℕ) :=
  ((List.range n).foldl classStep (parent, [])).2.map Prod.snd

/-- The entries are the classes of the nodes below `m`, under their roots. -/
structure Lists (parent : List ℕ) (m : ℕ) (entries : List (ℕ × Finset ℕ)) : Prop where
  nodup : (entries.map Prod.fst).Nodup
  members : ∀ c ∈ entries, ∀ y, y ∈ c.2 ↔ y < m ∧ HasRoot parent y c.1
  nonempty : ∀ c ∈ entries, c.2.Nonempty
  listed : ∀ y < m, ∃ c ∈ entries, HasRoot parent y c.1

theorem Lists.addToClass {m : ℕ} {entries : List (ℕ × Finset ℕ)} (h : Lists parent m entries)
    (hr : HasRoot parent m r) : Lists parent (m + 1) (addToClass entries r m) := by
  have hsucc (y q : ℕ) : y < m + 1 ∧ HasRoot parent y q ↔
      y < m ∧ HasRoot parent y q ∨ y = m ∧ q = r := by
    rw [Nat.lt_succ_iff_lt_or_eq,or_and_right]
    refine or_congr_right (and_congr_right fun hy => ?_)
    rw [hy]
    exact ⟨fun h => h.unique hr,fun h => h ▸ hr⟩
  unfold UnionFind.addToClass
  split
  case isTrue hold =>
    refine ⟨?_,?_,?_,?_⟩
    · have hfst : (entries.map fun c => if c.1 = r then (c.1, insert m c.2) else c).map Prod.fst =
          entries.map Prod.fst := by
        rw [List.map_map]
        refine List.map_congr_left fun c _ => ?_
        rw [Function.comp_apply]
        split <;> rfl
      rw [hfst]
      exact h.nodup
    · intro c hc y
      obtain ⟨d,hd,rfl⟩ := List.mem_map.mp hc
      by_cases hdr : d.1 = r
      · rw [if_pos hdr,mem_insert,h.members d hd y,hsucc,or_comm]
        simp [hdr]
      · rw [if_neg hdr,h.members d hd y,hsucc]
        simp [hdr]
    · intro c hc
      obtain ⟨d,hd,rfl⟩ := List.mem_map.mp hc
      split
      · exact insert_nonempty _ _
      · exact h.nonempty d hd
    · intro y hy
      have hmem : ∀ d ∈ entries, (d.1, (if d.1 = r then (d.1, insert m d.2) else d).2) ∈
          entries.map fun c => if c.1 = r then (c.1, insert m c.2) else c := by
        intro d hd
        refine List.mem_map.mpr ⟨d,hd,?_⟩
        split <;> rfl
      rcases Nat.lt_succ_iff_lt_or_eq.mp hy with hy | rfl
      · obtain ⟨d,hd,hroot⟩ := h.listed y hy
        exact ⟨_,hmem d hd,hroot⟩
      · obtain ⟨d,hd,hdr⟩ := hold
        exact ⟨_,hmem d hd,hdr ▸ hr⟩
  case isFalse hfr =>
    refine ⟨?_,?_,?_,?_⟩
    · rw [List.map_append,List.nodup_append]
      refine ⟨h.nodup,List.nodup_singleton _,?_⟩
      rintro root hroot _ hoth rfl
      obtain ⟨c,hc,rfl⟩ := List.mem_map.mp hroot
      exact hfr ⟨c,hc,List.mem_singleton.mp hoth⟩
    · intro c hc y
      rcases List.mem_append.mp hc with hc | hc
      · have hne : c.1 ≠ r := fun heq => hfr ⟨c,hc,heq⟩
        rw [h.members c hc y,hsucc]
        simp [hne]
      · rw [List.mem_singleton.mp hc,mem_singleton,hsucc,or_iff_right,and_iff_left rfl]
        intro ⟨hy,hroot⟩
        obtain ⟨c',hc',hroot'⟩ := h.listed y hy
        exact hfr ⟨c',hc',hroot'.unique hroot⟩
    · intro c hc
      rcases List.mem_append.mp hc with hc | hc
      · exact h.nonempty c hc
      · rw [List.mem_singleton.mp hc]
        exact singleton_nonempty m
    · intro y hy
      rcases Nat.lt_succ_iff_lt_or_eq.mp hy with hy | rfl
      · obtain ⟨c,hc,hroot⟩ := h.listed y hy
        exact ⟨c,List.mem_append_left _ hc,hroot⟩
      · exact ⟨(r, {y}),List.mem_append_right _ (List.mem_singleton_self _),hr⟩

theorem foldl_classStep (hf : Forest parent) (n : ℕ) :
    Halved parent ((List.range n).foldl classStep (parent, [])).1 ∧
      Lists parent n ((List.range n).foldl classStep (parent, [])).2 := by
  induction n with
  | zero =>
    refine ⟨Halved.refl parent,List.nodup_nil,?_,?_,?_⟩
    · exact fun c hc => absurd hc List.not_mem_nil
    · exact fun c hc => absurd hc List.not_mem_nil
    · exact fun y hy => absurd hy (Nat.not_lt_zero y)
  | succ n ih =>
    obtain ⟨hhv,hls⟩ := ih
    rw [List.range_succ,List.foldl_append,List.foldl_cons,List.foldl_nil]
    set s := (List.range n).foldl classStep (parent, [])
    obtain ⟨r,hr⟩ := hf.exists_hasRoot n
    obtain ⟨k,hpath⟩ := hhv.hasRoot hr
    obtain ⟨hroot,hhv'⟩ := findRoot_spec hpath
    refine ⟨hhv.trans hhv',?_⟩
    have hstep : (classStep s n).2 = UnionFind.addToClass s.2 r n := by
      unfold classStep
      dsimp only
      rw [hroot]
    rw [hstep]
    exact hls.addToClass hr

theorem mem_classes (hf : Forest parent) {n : ℕ} {c : Finset ℕ} :
    c ∈ classes parent n ↔ c.Nonempty ∧ ∀ x ∈ c, x < n ∧ ∀ y, y ∈ c ↔ y < n ∧ Same parent x y := by
  obtain ⟨_,h⟩ := foldl_classStep hf n
  unfold classes
  rw [List.mem_map]
  constructor
  · rintro ⟨entry,hen,rfl⟩
    refine ⟨h.nonempty entry hen,fun x hx => ?_⟩
    obtain ⟨hlt,hroot⟩ := (h.members entry hen x).mp hx
    refine ⟨hlt,fun y => ?_⟩
    rw [h.members entry hen y,hroot.iff_same]
  · rintro ⟨⟨x,hx⟩,hc⟩
    obtain ⟨hlt,hmem⟩ := hc x hx
    obtain ⟨entry,hen,hroot⟩ := h.listed x hlt
    refine ⟨entry,hen,ext fun y => ?_⟩
    rw [h.members entry hen y,hmem y,hroot.iff_same]

end UnionFind

end PgOrca
