import PgOrca.Library.Loop

/-!
# Acyclic relations and depth-first search

Adding edges that leave one node and identifying nodes keep a relation acyclic exactly when the
new edges, or the identified nodes, are not joined by a path already.
-/

namespace PgOrca

open Relation Finset

variable {α β : Type*} {r s : α → α → Prop}

def Acyclic (r : α → α → Prop) : Prop := ∀ a, ¬ TransGen r a a

theorem Acyclic.mono (h : Acyclic s) (hrs : ∀ a b, r a b → s a b) : Acyclic r :=
  fun a ha => h a (TransGen.mono hrs a a ha)

section

def addEdges (r : α → α → Prop) (a : α) (S : Set α) (x y : α) : Prop :=
  r x y ∨ x = a ∧ y ∈ S

variable {a : α} {S : Set α}

/-- A path uses the new edges at most once when they lead to no node that reaches `a`. -/
theorem reflTransGen_addEdges (hS : ∀ c ∈ S, ¬ ReflTransGen r c a) {x y : α}
    (h : ReflTransGen (addEdges r a S) x y) :
    ReflTransGen r x y ∨ ReflTransGen r x a ∧ ∃ c ∈ S, ReflTransGen r c y := by
  induction h with
  | refl => exact .inl .refl
  | tail _ hstep ih =>
    rcases ih with hxy | ⟨hxa,c,hc,hcy⟩ <;> rcases hstep with hstep | ⟨rfl,hmem⟩
    · exact .inl (hxy.tail hstep)
    · exact .inr ⟨hxy,_,hmem,.refl⟩
    · exact .inr ⟨hxa,c,hc,hcy.tail hstep⟩
    · exact absurd hcy (hS c hc)

theorem acyclic_addEdges :
    Acyclic (addEdges r a S) ↔ Acyclic r ∧ ∀ c ∈ S, ¬ ReflTransGen r c a := by
  constructor
  · intro h
    refine ⟨h.mono fun _ _ => .inl,fun c hc hca => h a ?_⟩
    exact .head' (.inr ⟨rfl,hc⟩) (hca.lift id fun _ _ => .inl)
  · rintro ⟨hr,hS⟩ x hx
    obtain ⟨y,hxy,hyx⟩ := TransGen.tail'_iff.mp hx
    have hpath := reflTransGen_addEdges hS hxy
    rcases hyx with hyx | ⟨rfl,hmem⟩
    · rcases hpath with hxy | ⟨hxa,c,hc,hcy⟩
      · exact hr x (.tail' hxy hyx)
      · exact hS c hc ((hcy.tail hyx).trans hxa)
    · rcases hpath with hxy | ⟨_,c,hc,hcy⟩
      · exact hS x hmem hxy
      · exact hS c hc hcy

theorem eq_of_reflTransGen_of_no_edge {x y : α} (hy : ∀ z, ¬ r z y) (h : ReflTransGen r x y) :
    x = y := by
  rcases h.cases_tail with h | ⟨z,_,hzy⟩
  · exact h.symm
  · exact absurd hzy (hy z)

end

section

variable {f : α → β} {P : Set α}

/-- A path between classes is the image of one path or leaves through `P` and comes back from it. -/
theorem transGen_map (hf : ∀ x y, f x = f y → x = y ∨ x ∈ P ∧ y ∈ P)
    (hP : ∀ c ∈ P, ∀ d ∈ P, ¬ TransGen r c d) {u v : β} (h : TransGen (Relation.Map r f f) u v) :
    ∃ x y, f x = u ∧ f y = v ∧
      (TransGen r x y ∨ ∃ c ∈ P, ∃ d ∈ P, TransGen r x c ∧ TransGen r d y) := by
  induction h with
  | single hstep =>
    obtain ⟨x,y,hxy,hx,hy⟩ := hstep
    exact ⟨x,y,hx,hy,.inl (.single hxy)⟩
  | tail _ hstep ih =>
    obtain ⟨p,q,hpq,hp,hq⟩ := hstep
    obtain ⟨x,y,hx,hy,hpath⟩ := ih
    refine ⟨x,q,hx,hq,?_⟩
    rcases hf y p (hy.trans hp.symm) with rfl | ⟨hyP,hpP⟩
    · rcases hpath with hxy | ⟨c,hc,d,hd,hxc,hdy⟩
      · exact .inl (hxy.tail hpq)
      · exact .inr ⟨c,hc,d,hd,hxc,hdy.tail hpq⟩
    · rcases hpath with hxy | ⟨c,hc,d,hd,_,hdy⟩
      · exact .inr ⟨y,hyP,p,hpP,hxy,.single hpq⟩
      · exact absurd hdy (hP d hd y hyP)

/-- Identifying the nodes of `P` closes no cycle when none of them reaches another. -/
theorem acyclic_map (hf : ∀ x y, f x = f y → x = y ∨ x ∈ P ∧ y ∈ P) (hr : Acyclic r)
    (hP : ∀ c ∈ P, ∀ d ∈ P, ¬ TransGen r c d) : Acyclic (Relation.Map r f f) := by
  intro u hu
  obtain ⟨x,y,rfl,hy,hpath⟩ := transGen_map hf hP hu
  rcases hf x y hy.symm with rfl | ⟨hxP,hyP⟩
  · rcases hpath with hxx | ⟨c,hc,d,hd,hxc,hdx⟩
    · exact hr x hxx
    · exact hP d hd c hc (hdx.trans hxc)
  · rcases hpath with hxy | ⟨c,hc,_,_,hxc,_⟩
    · exact hP x hxP y hyP hxy
    · exact hP x hxP c hc hxc

theorem transGen_map_of_transGen {x y : α} (h : TransGen r x y) :
    TransGen (Relation.Map r f f) (f x) (f y) :=
  h.lift f fun a b hab => ⟨a,b,hab,rfl,rfl⟩

theorem acyclic_map_replace [DecidableEq α] {a b : α} (hab : a ≠ b) :
    Acyclic (Relation.Map r (fun x => if x = a then b else x) fun x => if x = a then b else x) ↔
      Acyclic r ∧ ¬ ReflTransGen r a b ∧ ¬ ReflTransGen r b a := by
  have htr {x y : α} (hne : x ≠ y) : ReflTransGen r x y ↔ TransGen r x y := by
    rw [reflTransGen_iff_eq_or_transGen]
    exact or_iff_right fun h => hne h.symm
  rw [htr hab,htr hab.symm]
  constructor
  · intro h
    refine ⟨fun x hx => h _ (transGen_map_of_transGen hx),fun hpath => ?_,fun hpath => ?_⟩
    all_goals
      have := transGen_map_of_transGen (f := fun x => if x = a then b else x) hpath
      simp only [if_pos,if_neg hab.symm] at this
      exact h b this
  · rintro ⟨hr,hfor,hback⟩
    refine acyclic_map (P := {a, b}) (fun x y hxy => ?_) hr ?_
    · by_cases hx : x = a <;> by_cases hy : y = a
      · exact .inl (hx.trans hy.symm)
      · rw [if_pos hx,if_neg hy] at hxy
        exact .inr ⟨.inl hx,.inr hxy.symm⟩
      · rw [if_neg hx,if_pos hy] at hxy
        exact .inr ⟨.inr hxy,.inl hy⟩
      · rw [if_neg hx,if_neg hy] at hxy
        exact .inl hxy
    · rintro c (rfl | rfl) d (rfl | rfl)
      · exact hr _
      · exact hfor
      · exact hback
      · exact hr _

end

section

variable [DecidableEq α] (norm : α → α) (succ : α → List α) (target : α) {A B N : Finset α} {a : α}

/-- Depth-first search for `target`. Each node is replaced by its representative before it is
compared; the visited nodes are passed on to the siblings. -/
def search : ℕ → α → Finset α → Bool × Finset α
  | 0, _, visited => (false, visited)
  | fuel + 1, a, visited =>
    if norm a = target then (true, visited)
    else if norm a ∈ visited then (false, visited)
    else untilAbort (search fuel) (succ (norm a)) (insert (norm a) visited)

def Follows (x y : α) : Prop := ∃ b ∈ succ x, norm b = y

/-- The nodes visited since `visited` have all their successors in `result`. -/
structure Explored (visited result : Finset α) : Prop where
  subset : visited ⊆ result
  target_notMem : target ∉ visited → target ∉ result
  closed : ∀ x ∈ result, x ∉ visited → ∀ b ∈ succ x, norm b ∈ result

variable {norm succ target}

omit [DecidableEq α] in
theorem Explored.refl (A : Finset α) : Explored norm succ target A A :=
  ⟨subset_rfl,id,fun _ hx hnot => absurd hx hnot⟩

theorem Explored.trans {C : Finset α} (hAB : Explored norm succ target A B)
    (hBC : Explored norm succ target B C) : Explored norm succ target A C where
  subset := hAB.subset.trans hBC.subset
  target_notMem h := hBC.target_notMem (hAB.target_notMem h)
  closed x hx hxA b hb := by
    by_cases hxB : x ∈ B
    · exact hBC.subset (hAB.closed x hxB hxA b hb)
    · exact hBC.closed x hx hxB b hb

theorem Explored.insert (hne : a ≠ target) (h : Explored norm succ target (insert a A) B)
    (ha : ∀ b ∈ succ a, norm b ∈ B) : Explored norm succ target A B where
  subset := (subset_insert a A).trans h.subset
  target_notMem hnot := h.target_notMem fun hin => by
    rcases mem_insert.mp hin with rfl | hin
    · exact hne rfl
    · exact hnot hin
  closed x hx hxA b hb := by
    by_cases hxa : x = a
    · exact ha b (hxa ▸ hb)
    · exact h.closed x hx (fun hin => hxA (mem_of_mem_insert_of_ne hin hxa)) b hb

theorem card_sdiff_insert_lt (ha : a ∈ N) (hnot : a ∉ A) :
    (N \ insert a A).card < (N \ A).card := by
  have hmem : a ∈ N \ A := mem_sdiff.mpr ⟨ha,hnot⟩
  rw [sdiff_insert]
  exact card_erase_lt_of_mem hmem

/-- The search finds a path to `target` or explores all nodes it meets, given one unit of fuel for
each unvisited node of `N`. -/
theorem search_spec (target : α) (hN : ∀ x ∈ N, ∀ b ∈ succ x, norm b ∈ N) {fuel : ℕ}
    {visited : Finset α} (ha : norm a ∈ N) (hfuel : (N \ visited).card < fuel) :
    if (search norm succ target fuel a visited).1 then
      ReflTransGen (Follows norm succ) (norm a) target
    else
      Explored norm succ target visited (search norm succ target fuel a visited).2 ∧
        norm a ∈ (search norm succ target fuel a visited).2 := by
  induction fuel generalizing a visited with
  | zero => exact absurd hfuel (Nat.not_lt_zero _)
  | succ fuel ih =>
    rw [search]
    by_cases ht : norm a = target
    · rw [if_pos ht,if_pos rfl,ht]
    by_cases hvi : norm a ∈ visited
    · rw [if_neg ht,if_pos hvi]
      exact ⟨.refl visited,hvi⟩
    rw [if_neg ht,if_neg hvi]
    have hfuel' : (N \ insert (norm a) visited).card < fuel :=
      (card_sdiff_insert_lt ha hvi).trans_le (Nat.le_of_lt_succ hfuel)
    -- the invariant of the loop over the successors
    have hloop : if (untilAbort (search norm succ target fuel) (succ (norm a))
          (insert (norm a) visited)).1 then
        ReflTransGen (Follows norm succ) (norm a) target
      else _ :=
      untilAbort_prefix_rule
        (fun handled v => Explored norm succ target (insert (norm a) visited) v ∧
          ∀ b ∈ handled, norm b ∈ v)
        (fun _ => ReflTransGen (Follows norm succ) (norm a) target) ⟨.refl _,nofun⟩
        fun handled b rest v hl ⟨hexp,hhan⟩ => by
        have hb : b ∈ succ (norm a) := by rw [hl]; exact List.mem_append_right _ List.mem_cons_self
        have hv : (N \ v).card < fuel :=
          (card_le_card (sdiff_subset_sdiff subset_rfl hexp.subset)).trans_lt hfuel'
        have hstep := ih (hN _ ha b hb) hv
        split at hstep
        case isTrue hfd =>
          rw [if_pos hfd]
          exact .head ⟨b,hb,rfl⟩ hstep
        case isFalse hnot =>
          rw [if_neg hnot]
          refine ⟨hexp.trans hstep.1,fun c hc => ?_⟩
          rcases List.mem_append.mp hc with hc | hc
          · exact hstep.1.subset (hhan c hc)
          · rw [List.mem_singleton.mp hc]
            exact hstep.2
    split at hloop
    case isTrue hfd =>
      rw [if_pos hfd]
      exact hloop
    case isFalse hnot =>
      rw [if_neg hnot]
      exact ⟨hloop.1.insert ht hloop.2,hloop.1.subset (mem_insert_self _ _)⟩

theorem search_iff (target : α) (hN : ∀ x ∈ N, ∀ b ∈ succ x, norm b ∈ N) {fuel : ℕ}
    (ha : norm a ∈ N) (hfuel : N.card < fuel) :
    (search norm succ target fuel a ∅).1 = true ↔
      ReflTransGen (Follows norm succ) (norm a) target := by
  have hspec := search_spec target hN ha (by rwa [sdiff_empty])
  split at hspec
  case isTrue hfd => exact ⟨fun _ => hspec,fun _ => hfd⟩
  case isFalse hnot =>
    refine ⟨fun hfd => absurd hfd hnot,fun hpath => ?_⟩
    -- the explored nodes are closed under successors
    have hcl {x : α} (hx : ReflTransGen (Follows norm succ) (norm a) x) :
        x ∈ (search norm succ target fuel a ∅).2 := by
      induction hx with
      | refl => exact hspec.2
      | tail _ hstep ih =>
        obtain ⟨b,hb,rfl⟩ := hstep
        exact hspec.1.closed _ ih (notMem_empty _) b hb
    exact absurd (hcl hpath) (hspec.1.target_notMem (notMem_empty _))

end

section

variable (succ : α → List α) {done N : Finset α} {a : α} {s : Finset α × Finset α} {fuel : ℕ}

def Completed (done : Finset α) : Prop :=
  ∀ x ∈ done, ¬ TransGen (fun x y => y ∈ succ x) x x ∧ ∀ y ∈ succ x, y ∈ done

/-- A cycle was found, or the path is as it was and all of `l` is done. -/
def Completes (l : List α) (s : Finset α × Finset α) (result : Bool × Finset α × Finset α) : Prop :=
  if result.1 then ∃ x, TransGen (fun x y => y ∈ succ x) x x
  else result.2.1 = s.1 ∧ (∀ x ∈ l, x ∈ result.2.2) ∧ s.2 ⊆ result.2.2 ∧ Completed succ result.2.2

variable {succ}

theorem completes_untilAbort {body : α → Finset α × Finset α → Bool × Finset α × Finset α}
    {l : List α} (hbody : ∀ b ∈ l, ∀ t, t.1 = s.1 → Completed succ t.2 →
      Completes succ [b] t (body b t)) (hdone : Completed succ s.2) :
    Completes succ l s (untilAbort body l s) := by
  induction l generalizing s with
  | nil => simpa [untilAbort,Completes] using hdone
  | cons b l ih =>
    have hb := hbody b List.mem_cons_self s rfl hdone
    rw [untilAbort]
    split <;> rename_i hfd
    · simpa [Completes,hfd] using hb
    · simp only [Completes,hfd] at hb
      have hl := ih (fun c hc t ht => hbody c (.tail _ hc) t (ht.trans hb.1)) hb.2.2.2
      unfold Completes at hl ⊢
      split at hl
      case isTrue h => rwa [if_pos h]
      case isFalse h =>
        rw [if_neg h]
        refine ⟨hl.1.trans hb.1,fun x hx => ?_,hb.2.2.1.trans hl.2.2.1,hl.2.2.2⟩
        rcases List.mem_cons.mp hx with rfl | hx
        · exact hl.2.2.1 (hb.2.1 x (.head _))
        · exact hl.2.1 x hx

variable [DecidableEq α]

/-- Depth-first search for a cycle, with the nodes on the path to `a` and those that are done. -/
def findCycle (succ : α → List α) : ℕ → α → Finset α × Finset α → Bool × Finset α × Finset α
  | 0, _, s => (false, s)
  | fuel + 1, a, s =>
    if a ∈ s.2 then (false, s)
    else if a ∈ s.1 then (true, s)
    else
      let result := untilAbort (findCycle succ fuel) (succ a) (insert a s.1, s.2)
      if result.1 then result else (false, result.2.1.erase a, insert a result.2.2)

theorem Completed.insert (h : Completed succ done) (ha : ∀ b ∈ succ a, b ∈ done) :
    Completed succ (insert a done) := by
  have hcl {x y : α} (hx : x ∈ done) (hxy : ReflTransGen (fun x y => y ∈ succ x) x y) :
      y ∈ done := by
    induction hxy with
    | refl => exact hx
    | tail _ hstep ih => exact (h _ ih).2 _ hstep
  intro x hx
  rcases mem_insert.mp hx with rfl | hx
  · refine ⟨fun hcy => ?_,fun y hy => mem_insert_of_mem (ha y hy)⟩
    obtain ⟨b,hb,hback⟩ := TransGen.head'_iff.mp hcy
    exact (h x (hcl (ha b hb) hback)).1 hcy
  · exact ⟨(h x hx).1,fun y hy => mem_insert_of_mem ((h x hx).2 y hy)⟩

theorem completes_findCycle (hN : ∀ x ∈ N, ∀ y ∈ succ x, y ∈ N) (ha : a ∈ N)
    (hfuel : (N \ s.1).card < fuel) (hdone : Completed succ s.2)
    (hpath : ∀ x ∈ s.1, TransGen (fun x y => y ∈ succ x) x a) :
    Completes succ [a] s (findCycle succ fuel a s) := by
  induction fuel generalizing a s with
  | zero => exact absurd hfuel (Nat.not_lt_zero _)
  | succ fuel ih =>
    rw [findCycle]
    by_cases hmem : a ∈ s.2
    · simp [Completes,hmem,hdone]
    by_cases hon : a ∈ s.1
    · simpa [Completes,hmem,hon] using ⟨a,hpath a hon⟩
    have hfuel' : (N \ insert a s.1).card < fuel :=
      (card_sdiff_insert_lt ha hon).trans_le (Nat.le_of_lt_succ hfuel)
    have hloop : Completes succ (succ a) (insert a s.1, s.2)
        (untilAbort (findCycle succ fuel) (succ a) (insert a s.1, s.2)) := by
      refine completes_untilAbort (fun b hb t ht hdone' => ?_) hdone
      refine ih (hN a ha b hb) (ht ▸ hfuel') hdone' fun x hx => ?_
      rcases mem_insert.mp (ht ▸ hx) with rfl | hx
      · exact .single hb
      · exact (hpath x hx).tail hb
    simp only [hmem,hon,if_false]
    unfold Completes at hloop ⊢
    split at hloop
    case isTrue h => simpa [h] using hloop
    case isFalse h =>
      obtain ⟨hpath',hsucc,hsub,hdone'⟩ := hloop
      simp [h,hpath',hon,hsub.trans (subset_insert _ _),hdone'.insert hsucc]

theorem findCycle_iff (hN : ∀ x ∈ N, ∀ y ∈ succ x, y ∈ N) (hfuel : N.card < fuel)
    {roots : List α} (hroots : ∀ x ∈ roots, x ∈ N) (hsucc : ∀ x, x ∉ roots → succ x = []) :
    (untilAbort (findCycle succ fuel) roots (∅, ∅)).1 = false ↔
      Acyclic fun x y => y ∈ succ x := by
  have hloop : Completes succ roots (∅, ∅) (untilAbort (findCycle succ fuel) roots (∅, ∅)) :=
    completes_untilAbort (fun b hb t ht hdone => completes_findCycle hN (hroots b hb)
      (by simpa [ht]) hdone (by simp [ht])) nofun
  unfold Completes at hloop
  split at hloop
  case isTrue h =>
    obtain ⟨x,hx⟩ := hloop
    exact ⟨fun hno => absurd (h.symm.trans hno) nofun,fun hac => absurd hx (hac x)⟩
  case isFalse h =>
    refine ⟨fun _ x hx => ?_,fun _ => by simpa using h⟩
    by_cases hmem : x ∈ roots
    · exact (hloop.2.2.2 x (hloop.2.1 x hmem)).1 hx
    · obtain ⟨b,hb,-⟩ := TransGen.head'_iff.mp hx
      simp [hsucc x hmem] at hb

end

section

variable {a x : α} {found pending : Set α}

/-- All that was found is reached, and only pending nodes have successors still to be found. -/
structure Worklist (r : α → α → Prop) (a : α) (found pending : Set α) : Prop where
  start : a ∈ found
  reached : ∀ x ∈ found, ReflTransGen r a x
  pending_subset : pending ⊆ found
  closed : ∀ x ∈ found, x ∉ pending → ∀ y, r x y → y ∈ found

theorem Worklist.step (h : Worklist r a found (insert x pending)) :
    Worklist r a (found ∪ {y | r x y}) (pending ∪ {y | r x y ∧ y ∉ found}) where
  start := .inl h.start
  reached y := by
    rintro (hy | hy)
    · exact h.reached y hy
    · exact (h.reached x (h.pending_subset (.inl rfl))).tail hy
  pending_subset y := by
    rintro (hy | hy)
    · exact .inl (h.pending_subset (.inr hy))
    · exact .inr hy.1
  closed y hy hnot z hz := by
    have := h.closed y
    grind

theorem Worklist.mem_iff (h : Worklist r a found ∅) : x ∈ found ↔ ReflTransGen r a x := by
  refine ⟨h.reached x,fun hx => ?_⟩
  induction hx with
  | refl => exact h.start
  | tail _ hstep ih => exact h.closed _ ih id _ hstep

end

end PgOrca
