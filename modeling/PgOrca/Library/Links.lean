import Mathlib

/-!
# Classes kept by ascending links

Every node has at most one link, to a node with a larger number. The node without a link at the
end of a chain represents the class of all nodes that lead to it.
-/

namespace PgOrca

open Relation
open Function (update update_of_ne update_self)

variable {link : ℕ → Option ℕ} {n : ℕ} {fuel g h a b m src dest : ℕ}

def Ascending (n : ℕ) (link : ℕ → Option ℕ) : Prop :=
  ∀ g h, link g = some h → g < h ∧ h < n

def Linked (link : ℕ → Option ℕ) : ℕ → ℕ → Prop := ReflTransGen fun g h => link g = some h

def follow (link : ℕ → Option ℕ) : ℕ → ℕ → ℕ
  | 0, g => g
  | fuel + 1, g => match link g with
    | none => g
    | some h => follow link fuel h

theorem linked_follow (fuel g : ℕ) : Linked link g (follow link fuel g) := by
  induction fuel generalizing g with
  | zero => exact .refl
  | succ fuel ih =>
    rw [follow]
    cases hlink : link g with
    | none => exact .refl
    | some h => exact .head hlink (ih h)

theorem link_follow (hlink : Ascending n link) (hfuel : n ≤ g + fuel) :
    link (follow link fuel g) = none := by
  induction fuel generalizing g with
  | zero =>
    cases hg : link g with
    | none => exact hg
    | some h =>
      have := hlink g h hg
      omega
  | succ fuel ih =>
    rw [follow]
    cases hg : link g with
    | none => exact hg
    | some h =>
      have := hlink g h hg
      exact ih (by omega)

theorem Linked.le (hlink : Ascending n link) (hgh : Linked link g h) : g ≤ h := by
  induction hgh with
  | refl => exact le_rfl
  | tail _ hstep ih => exact ih.trans (hlink _ _ hstep).1.le

theorem Linked.lt (hlink : Ascending n link) (hgh : Linked link g h) (hg : g < n) : h < n := by
  rcases hgh.cases_tail with rfl | ⟨_,_,hstep⟩
  · exact hg
  · exact (hlink _ _ hstep).2

theorem Linked.end_unique (ha : Linked link g a) (hb : Linked link g b) (hna : link a = none)
    (hnb : link b = none) : a = b := by
  induction ha using ReflTransGen.head_induction_on with
  | refl =>
    rcases hb.cases_head with rfl | ⟨c,hc,_⟩
    · rfl
    · rw [hna] at hc
      cases hc
  | head hstep _ ih =>
    rcases hb.cases_head with rfl | ⟨c,hc,hcb⟩
    · rw [hnb] at hstep
      cases hstep
    · rw [hstep] at hc
      cases hc
      exact ih hcb

theorem follow_eq_iff (hlink : Ascending n link) :
    follow link n g = m ↔ Linked link g m ∧ link m = none := by
  have hend : link (follow link n g) = none := link_follow hlink (by omega)
  constructor
  · rintro rfl
    exact ⟨linked_follow n g,hend⟩
  · rintro ⟨hgm,hm⟩
    exact (linked_follow n g).end_unique hgm hend hm

theorem follow_of_link (hlink : Ascending n link) (hgh : link g = some h) :
    follow link n g = follow link n h := by
  obtain ⟨hpath,hend⟩ := (follow_eq_iff hlink (g := h)).mp rfl
  exact (follow_eq_iff hlink).mpr ⟨.head hgh hpath,hend⟩

theorem follow_of_none (hlink : Ascending n link) (hg : link g = none) : follow link n g = g :=
  (follow_eq_iff hlink).mpr ⟨.refl,hg⟩

theorem Linked.color {color : ℕ → Bool} (hcolor : ∀ g h, link g = some h → color g = color h)
    (hgh : Linked link g h) : color g = color h := by
  induction hgh with
  | refl => rfl
  | tail _ hstep ih => exact ih.trans (hcolor _ _ hstep)

theorem Linked.update {b : Option ℕ} (hgh : Linked link g h) (ha : link a = none) :
    Linked (update link a b) g h := by
  induction hgh with
  | refl => exact .refl
  | tail _ hstep ih =>
    refine ih.tail ?_
    rw [update_of_ne _ _ _]
    · exact hstep
    · rintro rfl
      rw [ha] at hstep
      cases hstep

theorem Ascending.update (hlink : Ascending n link) (hab : a < b) (hb : b < n) :
    Ascending n (update link a (some b)) := by
  intro g h hgh
  by_cases hga : g = a
  · subst hga
    rw [update_self] at hgh
    cases hgh
    exact ⟨hab,hb⟩
  · rw [update_of_ne hga] at hgh
    exact hlink g h hgh

/-- Linking a representative `a` below another node joins the two classes. -/
theorem follow_update (hlink : Ascending n link) (ha : link a = none) (hab : a < b) (hb : b < n)
    (g : ℕ) :
    follow (update link a (some b)) n g =
      if follow link n g = a then follow link n b else follow link n g := by
  have hlink' := hlink.update hab hb
  obtain ⟨hpath,hend⟩ := (follow_eq_iff hlink (g := g)).mp rfl
  obtain ⟨hpathb,hendb⟩ := (follow_eq_iff hlink (g := b)).mp rfl
  split
  case isTrue heq =>
    have hne : follow link n b ≠ a := fun h => absurd (hpathb.le hlink) (by omega)
    refine (follow_eq_iff hlink').mpr ⟨?_,by rwa [update_of_ne hne]⟩
    rw [heq] at hpath
    exact (hpath.update ha).trans (.head (update_self a (some b) link) (hpathb.update ha))
  case isFalse hne =>
    exact (follow_eq_iff hlink').mpr ⟨hpath.update ha,by rwa [update_of_ne hne]⟩

/-! ## Joining two classes -/

/-- Follow the links of the smaller of two nodes until one of them can be linked to the other. -/
def addLink (link : ℕ → Option ℕ) : ℕ → ℕ → ℕ → ℕ → Option ℕ
  | 0, _, _ => link
  | fuel + 1, src, dest =>
    if link src = some dest then link
    else match link src with
      | none => update link src (some dest)
      | some next => if next > dest then addLink link fuel dest next else addLink link fuel next dest

section

variable (hlink : Ascending n link) (hlt : src < dest) (hdest : dest < n)
  (hfuel : n + n ≤ src + dest + fuel)

include hlink hlt hdest hfuel

theorem addLink_spec :
    (addLink link fuel src dest = link ∧ follow link n src = follow link n dest) ∨
    ∃ a b, addLink link fuel src dest = update link a (some b) ∧
      link a = none ∧ a < b ∧ b < n ∧
      (a = follow link n src ∧ follow link n b = follow link n dest ∨
        a = follow link n dest ∧ follow link n b = follow link n src) := by
  induction fuel generalizing src dest with
  | zero => omega
  | succ fuel ih =>
    rw [addLink]
    split
    case isTrue hdone => exact .inl ⟨rfl,follow_of_link hlink hdone⟩
    case isFalse hne =>
      cases hsrc : link src with
      | none =>
        exact .inr ⟨src,dest,rfl,hsrc,hlt,hdest,.inl ⟨(follow_of_none hlink hsrc).symm,rfl⟩⟩
      | some next =>
        obtain ⟨hnext,hnextn⟩ := hlink src next hsrc
        have hne' : next ≠ dest := fun h => hne (by rw [hsrc,h])
        have hfo := follow_of_link hlink hsrc
        dsimp only
        split
        case isTrue hswap =>
          rw [hfo]
          rcases ih hswap hnextn (by omega) with ⟨hsame,heq⟩ | ⟨a,b,hadd,ha,hab,hb,hcase⟩
          · exact .inl ⟨hsame,heq.symm⟩
          · exact .inr ⟨a,b,hadd,ha,hab,hb,hcase.symm⟩
        case isFalse hswap =>
          rw [hfo]
          exact ih (by omega) hdest (by omega)

theorem follow_addLink :
    ∃ a b, (a = follow link n src ∧ b = follow link n dest ∨
        a = follow link n dest ∧ b = follow link n src) ∧
      ∀ g, follow (addLink link fuel src dest) n g =
        if follow link n g = a then b else follow link n g := by
  rcases addLink_spec hlink hlt hdest hfuel with ⟨hsame,heq⟩ | ⟨a,b,hadd,ha,hab,hb,hcase⟩
  · refine ⟨_,_,.inl ⟨rfl,rfl⟩,fun g => ?_⟩
    rw [hsame,heq]
    split
    case isTrue h => exact h
    case isFalse => rfl
  · refine ⟨a,follow link n b,?_,fun g => ?_⟩
    · rcases hcase with ⟨h₁,h₂⟩ | ⟨h₁,h₂⟩
      · exact .inl ⟨h₁,h₂⟩
      · exact .inr ⟨h₁,h₂⟩
    · rw [hadd]
      exact follow_update hlink ha hab hb g

theorem Ascending.addLink : Ascending n (addLink link fuel src dest) := by
  rcases addLink_spec hlink hlt hdest hfuel with ⟨hsame,_⟩ | ⟨a,b,hadd,_,hab,hb,_⟩
  · rwa [hsame]
  · rw [hadd]
    exact hlink.update hab hb

end

def compress (link : ℕ → Option ℕ) (n g : ℕ) : ℕ → Option ℕ :=
  match link g with
  | none => link
  | some h => update link g (some (follow link n h))

theorem Ascending.compress (hlink : Ascending n link) (g : ℕ) : Ascending n
    (compress link n g) := by
  rw [PgOrca.compress]
  cases hg : link g with
  | none => exact hlink
  | some h =>
    obtain ⟨hgh,hh⟩ := hlink g h hg
    have hpath : Linked link h (follow link n h) := linked_follow n h
    exact hlink.update (hgh.trans_le (hpath.le hlink)) (hpath.lt hlink hh)

theorem compress_of_ne (h : m ≠ g) : compress link n g m = link m := by
  rw [compress]
  cases link g with
  | none => rfl
  | some h' => exact update_of_ne h _ _

theorem compress_self (hg : link g = some h) : compress link n g g = some (follow link n h) := by
  simp only [compress,hg,update_self]

theorem compress_of_none (hm : link m = none) : compress link n g m = none := by
  by_cases h : m = g
  · subst h
    simp only [compress,hm]
  · rw [compress_of_ne h,hm]

theorem follow_compress (hlink : Ascending n link) (g m : ℕ) :
    follow (compress link n g) n m = follow link n m := by
  have hlink' := hlink.compress g
  -- by induction on the distance to the bound of the links
  induction hk : n - m using Nat.strong_induction_on generalizing m with
  | _ k ih =>
    cases hm : link m with
    | none => rw [follow_of_none hlink hm,follow_of_none hlink' (compress_of_none hm)]
    | some h =>
      obtain ⟨hmh,hh⟩ := hlink m h hm
      by_cases hmg : m = g
      · subst hmg
        have hend : link (follow link n h) = none := link_follow hlink (by omega)
        rw [follow_of_link hlink' (compress_self hm),
          follow_of_none hlink' (compress_of_none hend),follow_of_link hlink hm]
      · rw [follow_of_link hlink' ((compress_of_ne hmg).trans hm),follow_of_link hlink hm]
        exact ih (n - h) (by omega) h rfl

/-! ## What linked nodes have in common -/

section

variable {color : ℕ → Bool}

theorem update_color (hcolor : ∀ g h, link g = some h → color g = color h)
    (hab : color a = color b) : ∀ g h, update link a (some b) g = some h → color g = color h := by
  intro g h hgh
  by_cases hga : g = a
  · subst hga
    rw [update_self] at hgh
    cases hgh
    exact hab
  · rw [update_of_ne hga] at hgh
    exact hcolor g h hgh

theorem addLink_color (hlink : Ascending n link)
    (hcolor : ∀ g h, link g = some h → color g = color h) (hsame : color src = color dest)
    (hlt : src < dest) (hdest : dest < n) (hfuel : n + n ≤ src + dest + fuel) :
    ∀ g h, addLink link fuel src dest g = some h → color g = color h := by
  have hrep (g : ℕ) : color g = color (follow link n g) := (linked_follow n g).color hcolor
  rcases addLink_spec hlink hlt hdest hfuel with ⟨hadd,_⟩ | ⟨a,b,hadd,_,_,_,hcase⟩
  · rwa [hadd]
  · rw [hadd]
    refine update_color hcolor ?_
    rcases hcase with ⟨rfl,hb⟩ | ⟨rfl,hb⟩
    · rw [← hrep,hrep b,hb,← hrep,hsame]
    · rw [← hrep,hrep b,hb,← hrep,hsame]

theorem compress_color (hcolor : ∀ g h, link g = some h → color g = color h) (g : ℕ) :
    ∀ a b, compress link n g a = some b → color a = color b := by
  rw [compress]
  cases hg : link g with
  | none => exact hcolor
  | some h =>
    exact update_color hcolor ((hcolor g h hg).trans ((linked_follow n h).color hcolor))

end

end PgOrca
