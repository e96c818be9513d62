import Mathlib

/-!
# Matching without regard to order

Each element on the left takes the first free one on the right that suits it. No choice is wrong
when elements that suit a common one suit the same elements.
-/

namespace PgOrca

open Multiset

variable {α β : Type*} {accept : α → β → Bool}

/-! ## Greedy matching -/

/-- Flag the first element that is free and accepted. -/
def useFirst (accept : β → Bool) : List (β × Bool) → Option (List (β × Bool))
  | [] => none
  | (b, used) :: rest =>
    if !used && accept b then some ((b, true) :: rest)
    else (useFirst accept rest).map fun rest => (b, used) :: rest

def matchEach (accept : α → β → Bool) : List α → List (β × Bool) → Bool
  | [], _ => true
  | a :: as, flagged =>
    match useFirst (accept a) flagged with
    | none => false
    | some flagged => matchEach accept as flagged

def matchAll (accept : α → β → Bool) (left : List α) (right : List β) : Bool :=
  matchEach accept left (right.map fun b => (b, false))

def unused (flagged : List (β × Bool)) : Multiset β :=
  ((flagged.filter fun entry => !entry.2).map Prod.fst : List β)

theorem unused_cons_used (b : β) (flagged : List (β × Bool)) : unused
    ((b, true) :: flagged) = unused flagged :=
  rfl

theorem unused_cons (b : β) (flagged : List (β × Bool)) :
    unused ((b, false) :: flagged) = b ::ₘ unused flagged := rfl

theorem unused_map (right : List β) : unused (right.map fun b => (b, false)) =
    (right : Multiset β) := by
  induction right with
  | nil => rfl
  | cons b right ih => rw [List.map_cons,unused_cons,ih,cons_coe]

theorem useFirst_spec (accept : β → Bool) (flagged : List (β × Bool)) :
    (useFirst accept flagged = none ∧ ∀ b ∈ unused flagged, accept b = false) ∨
      ∃ b flagged', useFirst accept flagged = some flagged' ∧ accept b = true ∧
        unused flagged = b ::ₘ unused flagged' := by
  induction flagged with
  | nil => exact .inl ⟨rfl,fun b hb => (notMem_zero b hb).elim⟩
  | cons entry flagged ih =>
    obtain ⟨b,used⟩ := entry
    cases used with
    | true =>
      rcases ih with ⟨hnone,hall⟩ | ⟨b',flagged',hsome,hacc,hfree⟩
      · exact .inl ⟨by simp [useFirst,hnone],hall⟩
      · refine .inr ⟨b',(b, true) :: flagged',by simp [useFirst,hsome],hacc,?_⟩
        rw [unused_cons_used,unused_cons_used,hfree]
    | false =>
      cases hacc : accept b with
      | true =>
        refine .inr ⟨b,(b, true) :: flagged,by simp [useFirst,hacc],hacc,?_⟩
        rw [unused_cons,unused_cons_used]
      | false =>
        rcases ih with ⟨hnone,hall⟩ | ⟨b',flagged',hsome,hacc',hfree⟩
        · refine .inl ⟨by simp [useFirst,hacc,hnone],fun c hc => ?_⟩
          rw [unused_cons,mem_cons] at hc
          rcases hc with rfl | hc
          · exact hacc
          · exact hall c hc
        · refine .inr ⟨b',(b, false) :: flagged',by simp [useFirst,hacc,hsome],
            hacc',?_⟩
          rw [unused_cons,unused_cons,hfree,cons_swap]

def Zigzag (accept : α → β → Bool) : Prop :=
  ∀ a a' b b', accept a b = true → accept a' b = true → accept a' b' = true → accept a b' = true

/-- A match of all but `a` that uses `b` can do without it when `a` accepts `b`. -/
theorem exists_rel_of_swap (hzig : Zigzag accept) {a : α} {b : β} (hab : accept a b = true)
    {as : Multiset α} {rest : Multiset β}
    (h : ∃ t ≤ b ::ₘ rest, Multiset.Rel (fun a b => accept a b = true) (a ::ₘ as) t) :
    ∃ t ≤ rest, Multiset.Rel (fun a b => accept a b = true) as t := by
  classical
  obtain ⟨t,ht,hrel⟩ := h
  obtain ⟨c,t',hac,hrel',rfl⟩ := rel_cons_left.mp hrel
  by_cases hbt : b ∈ t'
  · -- the partner of `b` takes the partner of `a`
    obtain ⟨t'',rfl⟩ := exists_cons_of_mem hbt
    obtain ⟨a',as',hab',hrel'',rfl⟩ := rel_cons_right.mp hrel'
    refine ⟨c ::ₘ t'',?_,.cons (hzig a' a b c hab' hab hac) hrel''⟩
    rw [cons_swap] at ht
    exact (cons_le_cons_iff b).mp ht
  · by_cases hbc : b = c
    · subst hbc
      exact ⟨t',(cons_le_cons_iff b).mp ht,hrel'⟩
    · refine ⟨t',?_,hrel'⟩
      have hnot : b ∉ c ::ₘ t' := by
        rw [mem_cons,not_or]
        exact ⟨hbc,hbt⟩
      exact (le_cons_self t' c).trans ((le_cons_of_notMem hnot).mp ht)

theorem matchEach_iff (hzig : Zigzag accept) (as : List α) (flagged : List (β × Bool)) :
    matchEach accept as flagged = true ↔
      ∃ t ≤ unused flagged, Multiset.Rel (fun a b => accept a b = true) (as : Multiset α) t := by
  induction as generalizing flagged with
  | nil => exact ⟨fun _ => ⟨0,Multiset.zero_le _,.zero⟩,fun _ => rfl⟩
  | cons a as ih =>
    rw [← cons_coe]
    rcases useFirst_spec (accept a) flagged with ⟨hnone,hall⟩ | ⟨b,flagged',hsome,hab,hfree⟩
    · simp only [matchEach,hnone,Bool.false_eq_true,false_iff]
      rintro ⟨t,ht,hrel⟩
      obtain ⟨c,t',hac,_,rfl⟩ := rel_cons_left.mp hrel
      rw [hall c (mem_of_le ht (mem_cons_self c t'))] at hac
      cases hac
    · simp only [matchEach,hsome,ih flagged',hfree]
      constructor
      · rintro ⟨t,ht,hrel⟩
        exact ⟨b ::ₘ t,(cons_le_cons_iff b).mpr ht,.cons hab hrel⟩
      · exact exists_rel_of_swap hzig hab

theorem matchAll_iff (hzig : Zigzag accept) {left : List α} {right : List β}
    (hlen : left.length = right.length) :
    matchAll accept left right = true ↔
      Multiset.Rel (fun a b => accept a b = true) (left : Multiset α) (right : Multiset β) := by
  rw [matchAll,matchEach_iff hzig,unused_map]
  constructor
  · rintro ⟨t,ht,hrel⟩
    have hcard : card t = card (right : Multiset β) := by
      rw [← card_eq_card_of_rel hrel,coe_card,coe_card,hlen]
    rw [← eq_of_le_of_card_le ht hcard.ge]
    exact hrel
  · exact fun hrel => ⟨_,le_rfl,hrel⟩

theorem rel_comp {γ : Type*} {r : α → β → Prop} {r' : β → γ → Prop} {r'' : α → γ → Prop}
    (h : ∀ a b c, r a b → r' b c → r'' a c) {s : Multiset α} {t : Multiset β} {u : Multiset γ}
    (hst : Multiset.Rel r s t) (htu : Multiset.Rel r' t u) : Multiset.Rel r'' s u := by
  induction hst generalizing u with
  | zero =>
    rw [rel_zero_left.mp htu]
    exact .zero
  | cons hab _ ih =>
    obtain ⟨c,u',hbc,htu',rfl⟩ := rel_cons_left.mp htu
    exact .cons (h _ _ _ hab hbc) (ih htu')

/-! ## Backtracking -/

/-- Give every element a number below `n` that it accepts and no other element has, in all ways until
the complete assignment satisfies `final`. -/
def assignEach (n : ℕ) (accept : α → ℕ → Bool) (final : List ℕ → Bool) : List α → List ℕ → Bool
  | [], mapping => final mapping
  | a :: as, mapping =>
    (List.range n).any fun c =>
      decide (c ∉ mapping) && accept a c && assignEach n accept final as (mapping ++ [c])

theorem assignEach_iff {n : ℕ} {accept : α → ℕ → Bool} {final : List ℕ → Bool} (as : List α)
    (mapping : List ℕ) (hmap : mapping.Nodup) :
    assignEach n accept final as mapping = true ↔
      ∃ more, List.Forall₂ (fun a c => c < n ∧ accept a c = true) as more ∧
        (mapping ++ more).Nodup ∧ final (mapping ++ more) = true := by
  induction as generalizing mapping with
  | nil =>
    simp only [assignEach,List.forall₂_nil_left_iff,exists_eq_left,List.append_nil,hmap,true_and]
  | cons a as ih =>
    simp only [assignEach,List.any_eq_true,List.mem_range,Bool.and_eq_true,decide_eq_true_eq]
    constructor
    · rintro ⟨c,hlt,⟨hnew,hacc⟩,hrest⟩
      have hnd : (mapping ++ [c]).Nodup := by
        rw [List.nodup_append']
        exact ⟨hmap,List.nodup_singleton c,by simpa using hnew⟩
      obtain ⟨more,hall,hmore,hfi⟩ := (ih (mapping ++ [c]) hnd).mp hrest
      rw [List.append_assoc,List.singleton_append] at hmore hfi
      exact ⟨c :: more,.cons ⟨hlt,hacc⟩ hall,hmore,hfi⟩
    · rintro ⟨more,hall,hmore,hfi⟩
      cases hall with
      | @cons _ c _ more hc hall =>
        have hsp : mapping ++ c :: more = (mapping ++ [c]) ++ more := by simp
        rw [hsp] at hmore hfi
        have hnd : (mapping ++ [c]).Nodup := hmore.of_append_left
        refine ⟨c,hc.1,⟨?_,hc.2⟩,(ih (mapping ++ [c]) hnd).mpr ⟨more,hall,hmore,hfi⟩⟩
        rw [List.nodup_append'] at hnd
        exact fun hmem => hnd.2.2 hmem (List.mem_singleton_self c)

end PgOrca
