import Mathlib

/-!
# Loops that a callback can stop

A step returns its abort flag with the new state. A loop without a list runs as long as its body
asks for it; it ends when every round lowers a measure.
-/

namespace PgOrca

variable {α σ τ ρ : Type*} {P : σ → Prop} {first second : σ → Bool × σ}

def untilAbort (body : α → σ → Bool × σ) : List α → σ → Bool × σ
  | [], s => (false, s)
  | a :: as, s => if (body a s).1 then (true, (body a s).2) else untilAbort body as (body a s).2

def andThen (first second : σ → Bool × σ) (s : σ) : Bool × σ :=
  if (first s).1 then (true, (first s).2) else second (first s).2

def proceed (s : σ) : Bool × σ := (false, s)

variable {body : α → σ → Bool × σ} {l : List α} {s : σ}

theorem untilAbort_invariant (hbody : ∀ a ∈ l, ∀ s, P s → P (body a s).2)
    (hs : P s) : P (untilAbort body l s).2 := by
  induction l generalizing s with
  | nil => exact hs
  | cons a as ih =>
    have ha := hbody a List.mem_cons_self s hs
    simp only [untilAbort]
    split
    · exact ha
    · exact ih (fun b hb => hbody b (List.mem_cons_of_mem a hb)) ha

theorem andThen_invariant (h₁ : ∀ s, P s → P (first s).2) (h₂ : ∀ s, P s → P (second s).2)
    (hs : P s) : P (andThen first second s).2 := by
  simp only [andThen]
  split
  · exact h₁ s hs
  · exact h₂ _ (h₁ s hs)

variable (I : List α → σ → Prop)

/-- `I` holds of the handled prefix as long as no step aborts; an aborting step owes `Q`. -/
theorem untilAbort_prefix_rule (Q : σ → Prop) (h0 : I [] s)
    (hstep : ∀ before a after s', l = before ++ a :: after → I before s' →
      if (body a s').1 then Q (body a s').2 else I (before ++ [a]) (body a s').2) :
    if (untilAbort body l s).1 then Q (untilAbort body l s).2 else I l (untilAbort body l s).2 := by
  -- the induction is on the part still to be handled
  suffices h : ∀ rest before s', l = before ++ rest → I before s' →
      if (untilAbort body rest s').1 then Q (untilAbort body rest s').2
      else I l (untilAbort body rest s').2 from
    h l [] s rfl h0
  intro rest
  induction rest with
  | nil =>
    intro before s' hl hI
    rw [List.append_nil] at hl
    subst hl
    exact hI
  | cons a as ih =>
    intro before s' hl hI
    have hnext := hstep before a as s' hl hI
    by_cases habort : (body a s').1 = true
    · simp only [untilAbort,habort,if_true] at hnext ⊢
      exact hnext
    · simp only [untilAbort,habort] at hnext ⊢
      exact ih (before ++ [a]) _ (by rw [hl,List.append_assoc]; rfl) hnext

theorem untilAbort_succeeds (hok : (untilAbort body l s).1 = false) (h0 : I [] s)
    (hstep : ∀ before a after s', l = before ++ a :: after → I before s' →
      (body a s').1 = false → I (before ++ [a]) (body a s').2) : I l (untilAbort body l s).2 := by
  have h := untilAbort_prefix_rule I (fun _ => True) h0
    fun before a after s' hl hI => by
      split
      · trivial
      case isFalse hno => exact hstep before a after s' hl hI (Bool.not_eq_true _ ▸ hno)
  simpa only [hok,Bool.false_eq_true,if_false] using h

theorem andThen_succeeds (hok : (andThen first second s).1 = false) :
    (first s).1 = false ∧ (second (first s).2).1 = false ∧
      andThen first second s = second (first s).2 := by
  unfold andThen at hok ⊢
  split at hok
  · cases hok
  case isFalse hno =>
    rw [if_neg hno]
    exact ⟨Bool.not_eq_true _ ▸ hno,hok,rfl⟩

theorem untilAbort_congr {body' : α → σ → Bool × σ} (hbody : ∀ a ∈ l, ∀ s, P s → P (body a s).2)
    (heq : ∀ a ∈ l, ∀ s, P s → body a s = body' a s) (hs : P s) :
    untilAbort body l s = untilAbort body' l s := by
  induction l generalizing s with
  | nil => rfl
  | cons a as ih =>
    simp only [untilAbort]
    rw [← heq a List.mem_cons_self s hs]
    split
    · rfl
    · exact ih (fun b hb => hbody b (List.mem_cons_of_mem a hb))
        (fun b hb => heq b (List.mem_cons_of_mem a hb)) (hbody a List.mem_cons_self s hs)

/-! ## Loops with an unknown number of rounds -/

/-- The body goes on with a new state or leaves the loop with a result. There is no result when
`fuel` rounds were not enough, in the loop or in its body. -/
def loopWithin (body : σ → Option (σ ⊕ ρ)) : ℕ → σ → Option ρ
  | 0, _ => none
  | fuel + 1, s =>
    match body s with
    | none => none
    | some (.inl s') => loopWithin body fuel s'
    | some (.inr r) => some r

/-- Every round leaves the loop or lowers the measure; what holds of the result from the next state
on has to hold from this one on. -/
theorem loopWithin_ends {body : σ → Option (σ ⊕ ρ)} (I : σ → Prop) (μ : σ → ℕ) (Q : σ → ρ → Prop)
    (hbody : ∀ s, I s → (∃ r, body s = some (.inr r) ∧ Q s r) ∨
      ∃ s', body s = some (.inl s') ∧ I s' ∧ μ s' < μ s ∧ ∀ r, Q s' r → Q s r) {fuel : ℕ} (hs : I s)
    (hfuel : μ s < fuel) : ∃ r, loopWithin body fuel s = some r ∧ Q s r := by
  induction fuel generalizing s with
  | zero => exact (Nat.not_lt_zero _ hfuel).elim
  | succ fuel ih =>
    rcases hbody s hs with ⟨r,hr,hq⟩ | ⟨s',hs',hinv,hless,hback⟩
    · exact ⟨r,by simp only [loopWithin,hr],hq⟩
    · obtain ⟨r,hr,hq⟩ := ih hinv (by omega)
      exact ⟨r,by simp only [loopWithin,hs',hr],hback r hq⟩

end PgOrca
