import PgOrca.DPHyper.SimplifierSafety

/-!
# The queue of the simplifier

`ProcessNeighbors` computes entries anew from the current graph and order; the entries that it
leaves alone do not speak of the edge that has changed.
-/

namespace PgOrca

open List

namespace CDPHyperGraphSimplifier

variable {κ : Type*} {o : Oracles κ} {g₀ : CDPHyperGraph} {s s' s'' : CDPHyperGraphSimplifier κ}
  {i : ℕ} {f : CDPHyperGraphSimplifier κ → ℕ → CDPHyperGraphSimplifier κ}

/-! ## Entries -/

/-- The states differ at most in the entries and the queue. -/
structure SameCore (s s' : CDPHyperGraphSimplifier κ) : Prop where
  graph : s'.graph = s.graph
  order : s'.order = s.order
  applied : s'.applied = s.applied
  unapplied : s'.unapplied = s.unapplied
  length : s'.best.length = s.best.length

structure OnlyEntry (i : ℕ) (s s' : CDPHyperGraphSimplifier κ) : Prop extends SameCore s s' where
  bestAt : ∀ j, j ≠ i → s'.bestAt j = s.bestAt j

theorem SameCore.refl (s : CDPHyperGraphSimplifier κ) : SameCore s s := ⟨rfl,rfl,rfl,rfl,rfl⟩

theorem SameCore.trans (h : SameCore s s') (h' : SameCore s' s'') : SameCore s s'' :=
  ⟨h'.graph.trans h.graph,h'.order.trans h.order,h'.applied.trans h.applied,
    h'.unapplied.trans h.unapplied,h'.length.trans h.length⟩

theorem OnlyEntry.refl (i : ℕ) (s : CDPHyperGraphSimplifier κ) : OnlyEntry i s s :=
  ⟨SameCore.refl s,fun _ _ => rfl⟩

theorem OnlyEntry.trans (h : OnlyEntry i s s') (h' : OnlyEntry i s' s'') : OnlyEntry i s s'' :=
  ⟨h.toSameCore.trans h'.toSameCore,fun j hj => (h'.bestAt j hj).trans (h.bestAt j hj)⟩

theorem OnlyEntry.withQueue (h : OnlyEntry i s s') (queue : List ℕ) :
    OnlyEntry i s { s' with queue := queue } :=
  ⟨⟨h.graph,h.order,h.applied,h.unapplied,h.length⟩,h.bestAt⟩

theorem bestAt_of_length_le (h : s.best.length ≤ i) : s.bestAt i = ⟨none, none, false⟩ := by
  rw [bestAt,getD_eq_getElem?_getD,List.getElem?_eq_none h,Option.getD_none]

theorem bestAt_setBest_self (h : i < s.best.length) (b : SBestSimplification κ) :
    (s.setBest i b).bestAt i = b := by
  rw [bestAt,setBest,getD_eq_getElem?_getD,List.getElem?_set_self h,Option.getD_some]

theorem onlyEntry_setBest (s : CDPHyperGraphSimplifier κ) (i : ℕ) (b : SBestSimplification κ) :
    OnlyEntry i s (s.setBest i b) := by
  refine ⟨⟨rfl,rfl,rfl,rfl,length_set⟩,?_⟩
  intro j hj
  rw [bestAt,bestAt,setBest,getD_eq_getElem?_getD,getD_eq_getElem?_getD,
    List.getElem?_set_ne hj.symm]

theorem onlyEntry_updateQueue (s : CDPHyperGraphSimplifier κ) (i : ℕ) :
    OnlyEntry i s (s.updateQueue i) := by
  simp only [updateQueue]
  split
  · split
    · exact (onlyEntry_setBest s i _).withQueue _
    · exact .refl i s
  · split
    · exact (onlyEntry_setBest s i _).withQueue _
    · exact (OnlyEntry.refl i s).withQueue _

theorem onlyEntry_trySetStep (s : CDPHyperGraphSimplifier κ) (step : SSimplificationStep κ)
    (i neighbor : ℕ) : OnlyEntry i s (s.trySetStep o step i neighbor).2 := by
  simp only [trySetStep]
  split
  · exact (onlyEntry_setBest s i _).trans (onlyEntry_updateQueue _ i)
  · exact .refl i s

theorem onlyEntry_tryPair (s : CDPHyperGraphSimplifier κ) (edge1 edge2 i neighbor : ℕ) :
    OnlyEntry i s (s.tryPair o edge1 edge2 i neighbor).2 := by
  simp only [tryPair]
  split
  · exact onlyEntry_trySetStep s _ i neighbor
  · exact .refl i s

private theorem onlyEntry_foldl (hf : ∀ s e, OnlyEntry i s (f s e)) (l : List ℕ) :
    OnlyEntry i s (l.foldl f s) := by
  induction l generalizing s with
  | nil => exact .refl i s
  | cons e l ih => exact (hf s e).trans ih

theorem onlyEntry_processLater (s : CDPHyperGraphSimplifier κ) (edge1 first last : ℕ) :
    OnlyEntry edge1 s (s.processLater o edge1 first last) :=
  ((onlyEntry_setBest s edge1 _).trans
    (onlyEntry_foldl (fun s edge2 => onlyEntry_tryPair s edge1 edge2 edge1 edge2) _)).trans
    (onlyEntry_updateQueue _ edge1)

theorem onlyEntry_processEarlier (s : CDPHyperGraphSimplifier κ) (edge1 edge2 : ℕ) :
    OnlyEntry edge2 s (processEarlier o edge1 s edge2) := by
  have htd : OnlyEntry edge2 s (s.tryPair o edge1 edge2 edge2 edge1).2 :=
    onlyEntry_tryPair s edge1 edge2 edge2 edge1
  simp only [processEarlier]
  split
  · exact htd
  · split
    · exact htd.trans (onlyEntry_processLater _ edge2 _ _)
    · exact htd

private theorem sameCore_foldl (hf : ∀ s e, SameCore s (f s e))
    (l : List ℕ) : SameCore s (l.foldl f s) := by
  induction l generalizing s with
  | nil => exact .refl s
  | cons e l ih => exact (hf s e).trans ih

theorem sameCore_processNeighbors (s : CDPHyperGraphSimplifier κ) (edge1 first last : ℕ) :
    SameCore s (s.processNeighbors o edge1 first last) :=
  (sameCore_foldl (fun s edge2 => (onlyEntry_processEarlier s edge1 edge2).toSameCore) _).trans
    (onlyEntry_processLater _ edge1 first last).toSameCore

theorem makeStep_congr (h : SameCore s s') (edge1 edge2 : ℕ) :
    s'.makeStep o edge1 edge2 = s.makeStep o edge1 edge2 := by
  have hcore (s : CDPHyperGraphSimplifier κ) : s.makeStep o edge1 edge2 =
      (⟨s.graph,s.order,[],[],[],[]⟩ : CDPHyperGraphSimplifier κ).makeStep o edge1 edge2 := rfl
  rw [hcore s',hcore s,h.graph,h.order]

/-! ## What the queue holds -/

section

variable {Q : ℕ → ℕ → SSimplificationStep κ → Prop} {j edge1 edge2 : ℕ}

def Flagged (s : CDPHyperGraphSimplifier κ) : Prop := ∀ i ∈ s.queue, (s.bestAt i).inQueue = true

/-- A neighbour is recorded together with a step that `Q` accepts for the two edges. -/
def Live (Q : ℕ → ℕ → SSimplificationStep κ → Prop) (s : CDPHyperGraphSimplifier κ) (j : ℕ) :
    Prop :=
  ∀ m, (s.bestAt j).bestNeighbor = some m → ∃ step, (s.bestAt j).step = some step ∧ Q j m step

/-- If the entry is in the queue, it holds a step that `Q` accepts. -/
def Sound (Q : ℕ → ℕ → SSimplificationStep κ → Prop) (s : CDPHyperGraphSimplifier κ) (j : ℕ) :
    Prop :=
  (s.bestAt j).inQueue = true → ∃ m step, (s.bestAt j).bestNeighbor = some m ∧
    (s.bestAt j).step = some step ∧ Q j m step

/-- `Q` accepts every step that can be made in this state. -/
def Makes (o : Oracles κ) (Q : ℕ → ℕ → SSimplificationStep κ → Prop)
    (s : CDPHyperGraphSimplifier κ) : Prop :=
  ∀ j m step, j < m → s.makeStep o j m = some step ∨ s.makeStep o m j = some step → Q j m step

theorem Makes.congr (h : Makes o Q s) (hcore : SameCore s s') : Makes o Q s' := by
  intro j m step hlt hmade
  rw [makeStep_congr hcore,makeStep_congr hcore] at hmade
  exact h j m step hlt hmade

theorem Sound.only (h : Sound Q s j) (hcore : OnlyEntry i s s') (hne : j ≠ i) : Sound Q s' j := by
  unfold Sound
  rw [hcore.bestAt j hne]
  exact h

theorem Flagged.setBest (h : Flagged s) {b : SBestSimplification κ}
    (hb : b.inQueue = (s.bestAt i).inQueue) : Flagged (s.setBest i b) := by
  intro j hj
  by_cases hji : j = i
  · subst hji
    by_cases hlt : j < s.best.length
    · rw [bestAt_setBest_self hlt,hb]
      exact h j hj
    · have hflag := h j hj
      rw [bestAt_of_length_le (not_lt.mp hlt)] at hflag
      cases hflag
  · rw [(onlyEntry_setBest s i b).bestAt j hji]
    exact h j hj

theorem lt_length_of_bestNeighbor (h : (s.bestAt i).bestNeighbor.isSome = true) :
    i < s.best.length := by
  by_contra hle
  rw [bestAt_of_length_le (not_lt.mp hle)] at h
  cases h

theorem lt_length_of_inQueue (h : (s.bestAt i).inQueue = true) : i < s.best.length := by
  by_contra hle
  rw [bestAt_of_length_le (not_lt.mp hle)] at h
  cases h

theorem Flagged.remove (h : Flagged s) (i : ℕ) (b : SBestSimplification κ) :
    Flagged { s.setBest i b with queue := s.queue.filter (· ≠ i) } := by
  intro j hj
  obtain ⟨hj,hne⟩ := mem_filter.mp hj
  have hbest := (onlyEntry_setBest s i b).bestAt j (of_decide_eq_true hne)
  change ((s.setBest i b).bestAt j).inQueue = true
  rw [hbest]
  exact h j hj

theorem Flagged.updateQueue (h : Flagged s) (i : ℕ) : Flagged (s.updateQueue i) := by
  simp only [CDPHyperGraphSimplifier.updateQueue]
  split
  case isTrue =>
    split
    case isTrue hsome =>
      intro j hj
      change ((s.setBest i _).bestAt j).inQueue = true
      by_cases hji : j = i
      · subst hji
        rw [bestAt_setBest_self (lt_length_of_bestNeighbor hsome)]
      · rw [(onlyEntry_setBest s i _).bestAt j hji]
        rcases mem_append.mp hj with hj | hj
        · exact h j hj
        · exact (hji (mem_singleton.mp hj)).elim
    case isFalse => exact h
  case isFalse hflag =>
    split
    case isTrue => exact h.remove i _
    case isFalse =>
      intro j hj
      rcases mem_append.mp hj with hj | hj
      · exact h j (mem_of_mem_filter hj)
      · rw [mem_singleton.mp hj]
        exact not_not.mp hflag

theorem kept_flagged : Kept o (@Flagged κ) where
  record _ _ _ _ _ _ h _ := h.setBest rfl
  clear _ _ h := h.setBest rfl
  update _ i h := h.updateQueue i
  pop _ i h := h.remove i _
  withOrder _ _ h := h

theorem Live.updateQueue (h : Live Q s i) :
    Live Q (s.updateQueue i) i ∧ Sound Q (s.updateQueue i) i := by
  have hsd (s : CDPHyperGraphSimplifier κ) (h : Live Q s i)
      (hsome : (s.bestAt i).inQueue = true → (s.bestAt i).bestNeighbor.isSome = true) :
      Live Q s i ∧ Sound Q s i := by
    refine ⟨h,fun hflag => ?_⟩
    obtain ⟨m,hm⟩ := Option.isSome_iff_exists.mp (hsome hflag)
    obtain ⟨step,hstep,hq⟩ := h m hm
    exact ⟨m,step,hm,hstep,hq⟩
  have hset (flag : Bool) (queue : List ℕ) (hlt : i < s.best.length) :
      ({ s.setBest i ⟨(s.bestAt i).bestNeighbor,(s.bestAt i).step,flag⟩ with
        queue := queue } : CDPHyperGraphSimplifier κ).bestAt i =
        ⟨(s.bestAt i).bestNeighbor,(s.bestAt i).step,flag⟩ := bestAt_setBest_self hlt _
  simp only [CDPHyperGraphSimplifier.updateQueue]
  split
  case isTrue hflag =>
    split
    case isTrue hsome =>
      have hbest := hset true (s.queue ++ [i]) (lt_length_of_bestNeighbor hsome)
      apply hsd
      · unfold Live
        rw [hbest]
        exact h
      · rw [hbest]
        exact fun _ => hsome
    case isFalse => exact hsd s h fun hflag' => (hflag hflag').elim
  case isFalse hflag =>
    split
    case isTrue =>
      have hbest := hset false (s.queue.filter (· ≠ i)) (lt_length_of_inQueue (not_not.mp hflag))
      apply hsd
      · unfold Live
        rw [hbest]
        exact h
      · rw [hbest]
        simp
    case isFalse hnone =>
      refine hsd _ h fun _ => ?_
      exact Option.isSome_iff_ne_none.mpr fun hn => hnone (Option.isNone_iff_eq_none.mpr hn)

theorem trySetStep_spec (s : CDPHyperGraphSimplifier κ) (step : SSimplificationStep κ)
    (i neighbor : ℕ) :
    ((s.trySetStep o step i neighbor).1 = false → (s.trySetStep o step i neighbor).2 = s) ∧
      ((s.trySetStep o step i neighbor).1 = true → Q i neighbor step →
        Live Q (s.trySetStep o step i neighbor).2 i ∧
          Sound Q (s.trySetStep o step i neighbor).2 i) := by
  simp only [CDPHyperGraphSimplifier.trySetStep]
  split
  · refine ⟨by simp,fun _ hq => Live.updateQueue ?_⟩
    intro m hm
    have hlt : i < s.best.length := by
      have hset := lt_length_of_bestNeighbor (Option.isSome_of_mem hm)
      rwa [(onlyEntry_setBest s i _).length] at hset
    rw [bestAt_setBest_self hlt] at hm ⊢
    cases hm
    exact ⟨step,rfl,hq⟩
  · exact ⟨fun _ => rfl,by simp⟩

theorem tryPair_spec (hmake : Makes o Q s) {neighbor : ℕ} (hlt : i < neighbor)
    (hpair : edge1 = i ∧ edge2 = neighbor ∨ edge1 = neighbor ∧ edge2 = i) :
    ((s.tryPair o edge1 edge2 i neighbor).1 = false → (s.tryPair o edge1 edge2 i neighbor).2 = s) ∧
      ((s.tryPair o edge1 edge2 i neighbor).1 = true →
        Live Q (s.tryPair o edge1 edge2 i neighbor).2 i ∧
          Sound Q (s.tryPair o edge1 edge2 i neighbor).2 i) := by
  simp only [CDPHyperGraphSimplifier.tryPair]
  split
  case h_1 step hstep =>
    have hq : Q i neighbor step := by
      rcases hpair with ⟨rfl,rfl⟩ | ⟨rfl,rfl⟩
      · exact hmake edge1 edge2 step hlt (.inl hstep)
      · exact hmake edge2 edge1 step hlt (.inr hstep)
    obtain ⟨hff,htrue⟩ := trySetStep_spec (o := o) (Q := Q) s step i neighbor
    exact ⟨hff,fun h => htrue h hq⟩
  case h_2 => exact ⟨fun _ => rfl,by simp⟩

theorem Live.foldl_tryPair {l : List ℕ} (hl : ∀ e ∈ l, edge1 < e) (hmake : Makes o Q s)
    (h : Live Q s edge1) :
    Live Q (l.foldl (fun s edge2 => (s.tryPair o edge1 edge2 edge1 edge2).2) s) edge1 := by
  induction l generalizing s with
  | nil => exact h
  | cons edge2 l ih =>
    have hcore : OnlyEntry edge1 s (s.tryPair o edge1 edge2 edge1 edge2).2 :=
      onlyEntry_tryPair s edge1 edge2 edge1 edge2
    obtain ⟨hff,htrue⟩ := tryPair_spec hmake (hl edge2 mem_cons_self) (.inl ⟨rfl,rfl⟩)
    refine ih (fun e he => hl e (mem_cons_of_mem edge2 he)) (hmake.congr hcore.toSameCore) ?_
    change Live Q (s.tryPair o edge1 edge2 edge1 edge2).2 edge1
    cases hres : (s.tryPair o edge1 edge2 edge1 edge2).1 with
    | false =>
      rw [hff hres]
      exact h
    | true => exact (htrue hres).1

theorem sound_processLater (hmake : Makes o Q s) (edge1 first last : ℕ) :
    Sound Q (s.processLater o edge1 first last) edge1 := by
  have hcle := onlyEntry_setBest s edge1 ⟨none,(s.bestAt edge1).step,(s.bestAt edge1).inQueue⟩
  refine (Live.updateQueue (Live.foldl_tryPair ?_ (hmake.congr hcle.toSameCore) ?_)).2
  · intro e he
    have hge := (mem_range'_1.mp he).1
    omega
  · intro m hm
    have hlt : edge1 < s.best.length := by
      have hset := lt_length_of_bestNeighbor (Option.isSome_of_mem hm)
      rwa [hcle.length] at hset
    rw [bestAt_setBest_self hlt] at hm
    cases hm

theorem sound_processEarlier (hmake : Makes o Q s) (hlt : edge2 < edge1)
    (h : (s.bestAt edge2).bestNeighbor ≠ some edge1 → Sound Q s edge2) :
    Sound Q (processEarlier o edge1 s edge2) edge2 := by
  obtain ⟨hff,htrue⟩ := tryPair_spec hmake hlt (.inr ⟨rfl,rfl⟩)
  simp only [processEarlier]
  split
  case isTrue hset => exact (htrue hset).2
  case isFalse hset =>
    have hsame := hff (Bool.eq_false_iff.mpr hset)
    rw [hsame]
    split
    case isTrue => exact sound_processLater hmake edge2 _ _
    case isFalse hne => exact h hne

theorem sound_foldl_processEarlier {l : List ℕ} (hl : ∀ e ∈ l, e < edge1) (hmake : Makes o Q s)
    (h : Sound Q s j ∨ j ∈ l ∧ (s.bestAt j).bestNeighbor = some edge1) :
    Sound Q (l.foldl (processEarlier o edge1) s) j := by
  induction l generalizing s with
  | nil => exact h.resolve_right fun hmem => not_mem_nil hmem.1
  | cons edge2 l ih =>
    have hcore : OnlyEntry edge2 s (processEarlier o edge1 s edge2) :=
      onlyEntry_processEarlier s edge1 edge2
    refine ih (fun e he => hl e (mem_cons_of_mem edge2 he)) (hmake.congr hcore.toSameCore) ?_
    by_cases hj : j = edge2
    · subst hj
      refine .inl (sound_processEarlier hmake (hl j mem_cons_self) fun hne => ?_)
      exact h.resolve_right fun hmem => hne hmem.2
    · rcases h with h | ⟨hmem,hnei⟩
      · exact .inl (h.only hcore hj)
      · rw [hcore.bestAt j hj]
        exact .inr ⟨(mem_cons.mp hmem).resolve_left hj,hnei⟩

theorem sound_processNeighbors (hmake : Makes o Q s) {last : ℕ} (hlast : edge1 ≤ last)
    (h : ∀ j, j ≠ edge1 → (j < edge1 → (s.bestAt j).bestNeighbor ≠ some edge1) → Sound Q s j)
    (j : ℕ) : Sound Q (s.processNeighbors o edge1 0 last) j := by
  have hcore : SameCore s ((between 0 (min last edge1)).foldl (processEarlier o edge1) s) :=
    sameCore_foldl (fun s edge2 => (onlyEntry_processEarlier s edge1 edge2).toSameCore) _
  by_cases hj : j = edge1
  · subst hj
    exact sound_processLater (hmake.congr hcore) j 0 last
  · refine Sound.only ?_ (onlyEntry_processLater _ edge1 0 last) hj
    have hmem (e : ℕ) : e ∈ between 0 (min last edge1) ↔ e < edge1 := by
      rw [between,mem_range'_1,min_eq_right hlast]
      omega
    apply sound_foldl_processEarlier (fun e he => (hmem e).mp he) hmake
    by_cases hsp : j < edge1 ∧ (s.bestAt j).bestNeighbor = some edge1
    · exact .inr ⟨(hmem j).mpr hsp.1,hsp.2⟩
    · exact .inl (h j hj fun hlt hnei => hsp ⟨hlt,hnei⟩)

end

end CDPHyperGraphSimplifier

end PgOrca
