import PgOrca.Constraint.Conversion

/-!
# Containment of constraints

`Contains` compares two constraints column by column. What links the columns of a constraint is
not in its projections.
-/

namespace PgOrca

open List

variable {D : ℕ → Type*} [∀ colref, LinearOrder (D colref)]

namespace CConstraint

open CConstraintInterval hiding fContradiction isConstraintUnbounded

section

variable (columns : CTableColumns D) (colref : ℕ)

mutual

/-- The constraint on the column, if there is one. -/
def pcnstr : CConstraint D → Except Fault (Option (CConstraint D))
  | interval pcr pci => .ok (if pcr = colref then some (interval pcr pci) else none)
  | conjunction pdrgpcnstr =>
    if colref ∈ pcrsFromConstraints pdrgpcnstr then do
      pcnstrConjunction columns columns.pciIntervalFromScalarExpr (← conjunctsOnColumn pdrgpcnstr)
    else .ok none
  | disjunction pdrgpcnstr =>
    if colref ∈ pcrsFromConstraints pdrgpcnstr then
      if pdrgpcnstr.all fun child => colref ∈ child.pcrsUsed then do
        match ← disjunctsOnColumn pdrgpcnstr with
        | .inl pcnstrCol => return some pcnstrCol
        | .inr pdrgpcnstr =>
          pcnstrDisjunction columns columns.pciIntervalFromScalarExpr pdrgpcnstr
      else .ok ((pciUnbounded (columns.md colref) true).map (interval colref))
    else .ok none
  | negation child =>
    if child.pcrsUsed = [colref] then do
      match ← pcnstr child with
      | some pcnstrCol => return some (negation pcnstrCol)
      | none => .error .nullDereference
    else .ok none

def conjunctsOnColumn : List (CConstraint D) → Except Fault (List (CConstraint D))
  | [] => .ok []
  | child :: rest =>
    if colref ∈ child.pcrsUsed then do
      let pcnstrCol ← pcnstr child
      return (pcnstrCol.filter fun pcnstr => !pcnstr.isConstraintUnbounded columns).toList ++
        (← conjunctsOnColumn rest)
    else conjunctsOnColumn rest

/-- The first unbounded constraint is returned in place of the others. -/
def disjunctsOnColumn :
    List (CConstraint D) → Except Fault (CConstraint D ⊕ List (CConstraint D))
  | [] => .ok (.inr [])
  | child :: rest => do
    match (← pcnstr child) <|> (pciUnbounded (columns.md colref) true).map (interval colref) with
    | some pcnstrCol =>
      if pcnstrCol.isConstraintUnbounded columns then return .inl pcnstrCol
      else return (← disjunctsOnColumn rest).map id (pcnstrCol :: ·)
    | none => .error .nullDereference

end

/-- A null pointer in place of an interval is dereferenced by the caller. -/
def orFault {α : Type*} : Option α → Except Fault α
  | some a => .ok a
  | none => .error .nullDereference

def pciIntervalFromConstraint :
    Option (CConstraint D) → Except Fault (CConstraintInterval (IDatum (D colref)))
  | none => orFault (pciUnbounded (columns.md colref) true)
  | some (interval pcr pci) => if h : pcr = colref then .ok (h ▸ pci) else .error .nullDereference
  | some pcnstr => do
    orFault (← columns.pciIntervalFromScalarExpr colref (← pcnstr.pexprScalar columns))

/-- The intervals that are compared. The receiver's constraint on the column is released without a
null test. -/
def pcisOnColumn (this pcnstr : CConstraint D) : Except Fault
    (CConstraintInterval (IDatum (D colref)) × CConstraintInterval (IDatum (D colref))) := do
  match ← this.pcnstr columns colref with
  | none => .error .nullDereference
  | some pcnstrColThis =>
    let pciThis ← pciIntervalFromConstraint columns colref (some pcnstrColThis)
    return (pciThis, ← pciIntervalFromConstraint columns colref (← pcnstr.pcnstr columns colref))

def containsOnColumn (this pcnstr : CConstraint D) : Except Fault Bool :=
  (pcisOnColumn columns colref this pcnstr).map fun pcis =>
    fContainsInterval columns pcis.1 pcis.2

end

variable (columns : CTableColumns D)

def containsLoop (this pcnstr : CConstraint D) : List ℕ → Except Fault Bool
  | [] => .ok true
  | colref :: rest => do
    if ← containsOnColumn columns colref this pcnstr then containsLoop this pcnstr rest
    else return false

/-- `fSame` is the comparison of the two pointers. The columns come in the order of their ids. -/
def contains (fSame : Bool) (this pcnstr : CConstraint D) : Except Fault Bool :=
  if this.isConstraintUnbounded columns then .ok true
  else if pcnstr.isConstraintUnbounded columns then .ok false
  else if fSame then .ok true
  else containsLoop columns this pcnstr (this.pcrsUsed.insertionSort (· ≤ ·))

/-- The constraints do not share their only column. -/
def OtherColumn (pcnstr pcnstr' : CConstraint D) : Prop :=
  ∀ colref, pcnstr.pcrsUsed = [colref] → pcnstr'.pcrsUsed ≠ [colref]

/-- Intervals in normal form are the leaves, and of the children of a conjunction or disjunction at
most one is on each single column. -/
inductive Built : CConstraint D → Prop where
  | interval {colref : ℕ} {pci : CConstraintInterval (IDatum (D colref))} :
    pci.NormalForm → Built (interval colref pci)
  | conjunction {pdrgpcnstr : List (CConstraint D)} : pdrgpcnstr ≠ [] →
    pdrgpcnstr.Pairwise OtherColumn → (∀ pcnstr ∈ pdrgpcnstr, Built pcnstr) →
      Built (conjunction pdrgpcnstr)
  | disjunction {pdrgpcnstr : List (CConstraint D)} : pdrgpcnstr ≠ [] →
    pdrgpcnstr.Pairwise OtherColumn → (∀ pcnstr ∈ pdrgpcnstr, Built pcnstr) →
      Built (disjunction pdrgpcnstr)
  | negation {pcnstr : CConstraint D} : Built pcnstr → Built (negation pcnstr)

section

variable {columns} {this pcnstr : CConstraint D} {pdrgpcnstr kept : List (CConstraint D)}
  {colref : ℕ}
  {fConj : Bool} {row : TableRow D}

theorem Built.normal (h : Built pcnstr) : Normal pcnstr := by
  induction h with
  | interval hpci => exact .interval hpci
  | conjunction _ _ _ ih => exact .conjunction ih
  | disjunction _ _ _ ih => exact .disjunction ih
  | negation _ ih => exact .negation ih

/-- The deduplication leaves at most one constraint on each column. -/
theorem pairwise_deduplicateLoop (hnorm : ∀ pcnstr ∈ pdrgpcnstr, Normal pcnstr)
    (rest : List (CConstraint D)) (pcrsDeduped : List ℕ) (hsub : rest <+ pdrgpcnstr)
    (hkept : deduplicateLoop columns columns.pciIntervalFromScalarExpr fConj pdrgpcnstr pcrsDeduped
      rest = .ok kept) :
    kept.Pairwise OtherColumn ∧ ∀ pcnstr ∈ kept, ∀ colref, pcnstr.pcrsUsed = [colref] →
      colref ∉ pcrsDeduped ∧ pdrgpcnstrOnColumn rest colref ≠ [] := by
  induction rest generalizing pcrsDeduped kept with
  | nil =>
    cases hkept
    simp
  | cons child rest ih =>
    have hsub' := (sublist_cons_self child rest).trans hsub
    have hcons {colref : ℕ} (h : pdrgpcnstrOnColumn rest colref ≠ []) :
        pdrgpcnstrOnColumn (child :: rest) colref ≠ [] := by
      obtain ⟨p,hp⟩ := exists_mem_of_ne_nil _ h
      obtain ⟨hmem,hused⟩ := mem_pdrgpcnstrOnColumn.mp hp
      exact ne_nil_of_mem (mem_pdrgpcnstrOnColumn.mpr ⟨mem_cons_of_mem _ hmem,hused⟩)
    have hself {colref : ℕ} (h : child.pcrsUsed = [colref]) :
        pdrgpcnstrOnColumn (child :: rest) colref ≠ [] :=
      ne_nil_of_mem (mem_pdrgpcnstrOnColumn.mpr ⟨mem_cons_self,h⟩)
    rw [deduplicateLoop] at hkept
    split at hkept
    · next colref hused =>
      split_ifs at hkept with hded hone
      · obtain ⟨hpw,hmem⟩ := ih _ hsub' hkept
        exact ⟨hpw,fun p hp pcr hpcr => (hmem p hp pcr hpcr).imp_right hcons⟩
      · obtain ⟨kept',hkept',heq⟩ := bind_eq_ok.mp hkept
        cases heq
        obtain ⟨hpw,hmem⟩ := ih _ hsub' hkept'
        refine ⟨pairwise_cons.mpr ⟨fun p hp pcr hpcr hpcr' => ?_,hpw⟩,
          forall_mem_cons.mpr ⟨fun pcr hpcr => ?_,
            fun p hp pcr hpcr => (hmem p hp pcr hpcr).imp_right hcons⟩⟩
        · -- there is no second constraint on the column in the whole list
          cases hused.symm.trans hpcr
          have hlen := (hsub.filter fun p => p.pcrsUsed = [colref]).length_le
          have hpos := length_pos_of_ne_nil (hmem p hp colref hpcr').2
          rw [filter_cons_of_pos (by simpa using hused)] at hlen
          simp only [pdrgpcnstrOnColumn] at hone hpos
          rw [hone,length_cons] at hlen
          omega
        · cases hused.symm.trans hpcr
          exact ⟨hded,hself hused⟩
      · obtain ⟨merged,hmg,heq⟩ := bind_eq_ok.mp hkept
        obtain ⟨kept',hkept',heq⟩ := bind_eq_ok.mp heq
        cases heq
        obtain ⟨hpw,hmem⟩ := ih _ hsub' hkept'
        obtain ⟨pci,rfl,-⟩ := combined_spec hnorm hmg
        refine ⟨pairwise_cons.mpr ⟨fun p hp pcr hpcr hpcr' => ?_,hpw⟩,
          forall_mem_cons.mpr ⟨fun pcr hpcr => ?_,fun p hp pcr hpcr => ?_⟩⟩
        · obtain rfl : colref = pcr := by simpa [pcrsUsed] using hpcr
          exact (hmem p hp colref hpcr').1 mem_cons_self
        · obtain rfl : colref = pcr := by simpa [pcrsUsed] using hpcr
          exact ⟨hded,hself hused⟩
        · obtain ⟨hnot,hcol⟩ := hmem p hp pcr hpcr
          exact ⟨fun h => hnot (mem_cons_of_mem _ h),hcons hcol⟩
    · next hmany =>
      obtain ⟨kept',hkept',heq⟩ := bind_eq_ok.mp hkept
      cases heq
      obtain ⟨hpw,hmem⟩ := ih _ hsub' hkept'
      refine ⟨pairwise_cons.mpr ⟨fun p hp pcr hpcr => absurd hpcr (hmany pcr),hpw⟩,
        forall_mem_cons.mpr ⟨fun pcr hpcr => absurd hpcr (hmany pcr),
          fun p hp pcr hpcr => (hmem p hp pcr hpcr).imp_right hcons⟩⟩

theorem Built.opened (h : Built pcnstr) (fConj : Bool) :
    pcnstr.opened fConj ≠ [] ∧ ∀ child ∈ pcnstr.opened fConj, Built child := by
  have hself (heq : pcnstr.opened fConj = [pcnstr]) :
      pcnstr.opened fConj ≠ [] ∧ ∀ child ∈ pcnstr.opened fConj, Built child := by
    rw [heq]
    simpa using h
  cases h with
  | conjunction hne _ hall =>
    cases fConj with
    | false => exact hself rfl
    | true => exact ⟨hne,hall⟩
  | disjunction hne _ hall =>
    cases fConj with
    | false => exact ⟨hne,hall⟩
    | true => exact hself rfl
  | interval | negation => cases fConj <;> exact hself rfl

/-- The constructors of conjunctions and disjunctions make such trees from such trees. -/
theorem built_flatten (hne : pdrgpcnstr ≠ []) (h : ∀ pcnstr ∈ pdrgpcnstr, Built pcnstr)
    (hkept : pdrgpcnstrFlatten columns columns.pciIntervalFromScalarExpr fConj pdrgpcnstr =
      .ok kept) : Built (conjunction kept) ∧ Built (disjunction kept) := by
  have hop : ∀ child ∈ pdrgpcnstr.flatMap (CConstraint.opened fConj), Built child := by
    intro child hch
    obtain ⟨p,hp,hch⟩ := mem_flatMap.mp hch
    exact ((h p hp).opened fConj).2 child hch
  have hnorm := fun child hch => (hop child hch).normal
  have hbuilt : ∀ p ∈ kept, Built p := by
    intro p hp
    rcases mem_or_combined hkept hp with hmem | ⟨colref,merged,-,hmg,-,heq⟩
    · exact hop p hmem
    · obtain ⟨pci,rfl,hpci,-⟩ := combined_spec hnorm hmg
      exact heq _ rfl ▸ .interval hpci
  have hkeptne : kept ≠ [] := by
    obtain ⟨p,hp⟩ := exists_mem_of_ne_nil _ hne
    obtain ⟨child,hch⟩ := exists_mem_of_ne_nil _ ((h p hp).opened fConj).1
    rcases kept_or_combined hkept (mem_flatMap.mpr ⟨p,hp,hch⟩) with hpc | ⟨_,_,_,_,_,_,_,hpc⟩
    · exact ne_nil_of_mem hpc
    · exact ne_nil_of_mem hpc
  have hpw := (pairwise_deduplicateLoop hnorm _ _ (Sublist.refl _) hkept).1
  exact ⟨.conjunction hkeptne hpw hbuilt,.disjunction hkeptne hpw hbuilt⟩

/-! ## What is said about one column -/

mutual

/-- What the constraint says about the column alone does not rule out the row's value. -/
def Allows (row : TableRow D) (colref : ℕ) : CConstraint D → Prop
  | interval pcr pci => pcr = colref → pci.Contains (row pcr)
  | conjunction pdrgpcnstr => AllAllow row colref pdrgpcnstr
  | disjunction pdrgpcnstr => AnyAllows row colref pdrgpcnstr
  | negation pcnstr => pcnstr.pcrsUsed = [colref] → ¬ pcnstr.Holds row

def AllAllow (row : TableRow D) (colref : ℕ) : List (CConstraint D) → Prop
  | [] => True
  | pcnstr :: pdrgpcnstr => Allows row colref pcnstr ∧ AllAllow row colref pdrgpcnstr

def AnyAllows (row : TableRow D) (colref : ℕ) : List (CConstraint D) → Prop
  | [] => False
  | pcnstr :: pdrgpcnstr => Allows row colref pcnstr ∨ AnyAllows row colref pdrgpcnstr

end

/-- An interval under negations. -/
inductive Chain : CConstraint D → Prop where
  | interval {colref : ℕ} {pci : CConstraintInterval (IDatum (D colref))} :
    pci.NormalForm → Chain (interval colref pci)
  | negation {pcnstr : CConstraint D} : Chain pcnstr → Chain (negation pcnstr)

variable (columns colref) in
/-- The constraint on the column is exactly what is said about it. That of a constraint on one
column is an interval under negations. -/
structure Projection (this : CConstraint D) (answer : Option (CConstraint D)) : Prop where
  normal : ∀ p ∈ answer, Normal p
  column : ∀ p ∈ answer, ∀ pcr ∈ p.pcrsUsed, pcr = colref
  allows : ∀ row, (∀ p ∈ answer, p.Satisfied columns row) ↔ this.Allows row colref
  chain : this.pcrsUsed = [colref] → ∀ p ∈ answer, Chain p

variable (colref) in
/-- The constraints are those of the list on the column. -/
structure Parts (pdrgpcnstr kept : List (CConstraint D)) : Prop where
  normal : ∀ p ∈ kept, Normal p
  column : ∀ p ∈ kept, ∀ pcr ∈ p.pcrsUsed, pcr = colref
  chain : (∀ child ∈ pdrgpcnstr, child.pcrsUsed = [colref]) → ∀ p ∈ kept, Chain p
  length_le : kept.length ≤ pdrgpcnstr.length

omit [∀ colref, LinearOrder (D colref)] in
theorem pcrsUsed_of_mem_opened {child : CConstraint D} (hch : child ∈ pcnstr.opened fConj) :
    ∀ pcr ∈ child.pcrsUsed, pcr ∈ pcnstr.pcrsUsed := by
  intro pcr hpcr
  cases pcnstr with
  | conjunction pdrgpcnstr =>
    cases fConj with
    | false => exact mem_singleton.mp hch ▸ hpcr
    | true =>
      rw [pcrsUsed]
      exact mem_pcrsFromConstraints.mpr ⟨child,hch,hpcr⟩
  | disjunction pdrgpcnstr =>
    cases fConj with
    | false =>
      rw [pcrsUsed]
      exact mem_pcrsFromConstraints.mpr ⟨child,hch,hpcr⟩
    | true => exact mem_singleton.mp hch ▸ hpcr
  | interval | negation => cases fConj <;> exact mem_singleton.mp hch ▸ hpcr

/-- What is built from constraints on one column is on that column. -/
theorem column_pcnstrConjDisj (h : ∀ p ∈ kept, Normal p)
    (hcol : ∀ p ∈ kept, ∀ pcr ∈ p.pcrsUsed, pcr = colref)
    (hpc : pcnstrConjDisj columns columns.pciIntervalFromScalarExpr fConj kept =
      .ok (some pcnstr)) : ∀ pcr ∈ pcnstr.pcrsUsed, pcr = colref := by
  unfold pcnstrConjDisj at hpc
  split at hpc
  · cases hpc
  · cases hpc
    exact hcol _ mem_cons_self
  · obtain ⟨children,hchildren,hpc⟩ := bind_eq_ok.mp hpc
    have hop : ∀ p ∈ kept.flatMap (CConstraint.opened fConj), ∀ pcr ∈ p.pcrsUsed, pcr = colref := by
      intro p hp pcr hpcr
      obtain ⟨q,hq,hp⟩ := mem_flatMap.mp hp
      exact hcol q hq pcr (pcrsUsed_of_mem_opened hp pcr hpcr)
    have hused : ∀ pcr ∈ pcrsFromConstraints children, pcr = colref := by
      intro pcr hpcr
      obtain ⟨p,hp,hpcr⟩ := mem_pcrsFromConstraints.mp hpcr
      rcases mem_or_combined hchildren hp with hmem | ⟨colref',merged,hlen,hmg,-,heq⟩
      · exact hop p hmem pcr hpcr
      · obtain ⟨pci,rfl,-⟩ := combined_spec (normal_opened h fConj) hmg
        obtain ⟨q,hq⟩ := exists_mem_of_length_pos (Nat.zero_lt_of_lt hlen)
        obtain ⟨hmem,hq⟩ := mem_pdrgpcnstrOnColumn.mp hq
        rw [heq _ rfl,pcrsUsed,mem_singleton] at hpcr
        exact hpcr ▸ hop q hmem colref' (by simp [hq])
    cases fConj with
    | false =>
      obtain rfl : disjunction children = pcnstr := Option.some.inj (Except.ok.inj hpc)
      rwa [pcrsUsed]
    | true =>
      obtain rfl : conjunction children = pcnstr := Option.some.inj (Except.ok.inj hpc)
      rwa [pcrsUsed]

theorem Parts.pcnstrConjDisj {answer : Option (CConstraint D)} (h : Parts colref pdrgpcnstr kept)
    (hpc : pcnstrConjDisj columns columns.pciIntervalFromScalarExpr fConj kept = .ok answer) :
    (∀ p ∈ answer, Normal p) ∧ (∀ p ∈ answer, ∀ pcr ∈ p.pcrsUsed, pcr = colref) ∧
      (pdrgpcnstr.length = 1 → (∀ child ∈ pdrgpcnstr, child.pcrsUsed = [colref]) →
        ∀ p ∈ answer, Chain p) := by
  refine ⟨?_,?_,fun hone hall => ?_⟩
  · rintro p rfl
    exact (pcnstrConjDisj_spec h.normal hpc).1
  · rintro p rfl
    exact column_pcnstrConjDisj h.normal h.column hpc
  · have hlen := h.length_le
    have hchain := h.chain hall
    rcases kept with _ | ⟨q,_ | ⟨q',kept⟩⟩
    · cases hpc
      simp
    · cases hpc
      simpa using hchain
    · simp only [length_cons] at hlen
      omega

/-- The interval that is compared has the values that the constraint does not rule out. -/
theorem Projection.pciIntervalFromConstraint {answer : Option (CConstraint D)}
    {pci : CConstraintInterval (IDatum (D colref))} (h : Projection columns colref this answer)
    (hpci : pciIntervalFromConstraint columns colref answer = .ok pci) :
    pci.NormalForm ∧ ∀ row, pci.Contains (row colref) ↔ this.Allows row colref := by
  unfold CConstraint.pciIntervalFromConstraint at hpci
  split at hpci
  · obtain ⟨universal,huniv⟩ := exists_pciUnbounded columns colref true
    rw [huniv] at hpci
    cases hpci
    refine ⟨pciUnbounded_normalForm columns huniv,fun row => ?_⟩
    exact iff_of_true (contains_pciUnbounded columns huniv _) ((h.allows row).mp (by simp))
  · next pcr pci' =>
    obtain rfl : pcr = colref := h.column _ rfl pcr (by simp [pcrsUsed])
    rw [dif_pos rfl] at hpci
    cases hpci
    cases h.normal _ rfl with
    | interval hnorm =>
      refine ⟨hnorm,fun row => ?_⟩
      rw [← h.allows]
      simp [satisfied_interval hnorm]
  · next p _ =>
    obtain ⟨e,he,hpci⟩ := bind_eq_ok.mp hpci
    obtain ⟨found,hfound,hpci⟩ := bind_eq_ok.mp hpci
    have hnorm := h.normal p rfl
    obtain ⟨pci',hpci',hform,hcont⟩ := ((hnorm.form (h.column p rfl)).1 e he).exists_interval
    cases hpci'.symm.trans hfound
    cases hpci
    refine ⟨hform,fun row => ?_⟩
    rw [hcont,← hnorm.satisfied_iff he,← h.allows]
    simp

theorem Normal.holds (h : Normal pcnstr) (row : TableRow D) :
    (pcnstr.fContradiction columns = true → ¬ pcnstr.Holds row) ∧
      (pcnstr.isConstraintUnbounded columns = true → pcnstr.Holds row) := by
  induction h with
  | interval hpci =>
    rw [fContradiction,isConstraintUnbounded,Holds]
    exact ⟨fun h => hpci.not_contains_of_fContradiction columns h _,
      fun h => contains_of_isConstraintUnbounded h _⟩
  | conjunction _ ih =>
    refine ⟨fun h hrow => ?_,fun h => by simp [isConstraintUnbounded] at h⟩
    rw [fContradiction] at h
    obtain ⟨child,hch,hctr⟩ := (anyContradiction_iff columns).mp h
    exact (ih child hch).1 hctr (holds_conjunction.mp hrow child hch)
  | disjunction _ ih =>
    refine ⟨fun h hrow => ?_,fun h => by simp [isConstraintUnbounded] at h⟩
    rw [fContradiction] at h
    obtain ⟨child,hch,hrow⟩ := holds_disjunction.mp hrow
    exact (ih child hch).1 ((allContradiction_iff columns).mp h child hch) hrow
  | negation _ ih =>
    rw [fContradiction,isConstraintUnbounded,Holds,not_not]
    exact ⟨ih.2,ih.1⟩

/-! ## What the answers say about rows -/

end

end CConstraint

/-! ## A bound on either of two columns -/

namespace TwoBounds

open CConstraint
open CConstraintInterval (fContainsInterval pciDifference differenceRanges)

end TwoBounds

end PgOrca
