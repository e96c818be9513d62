import Mathlib

/-!
# Tries with wildcard edges

A node has labelled edges, at most one wildcard edge and the entries stored at it. A path is the
list of steps from a node; `Holds t p x` says that `x` is stored below `t` at path `p`, and this is
all that a reader of the trie can observe of the insertions that built it.
-/

namespace PgOrca

inductive WildTrie (Λ ε : Type) where
  | node (edges : List (Λ × WildTrie Λ ε)) (wild : Option (WildTrie Λ ε)) (entries : List ε)

namespace WildTrie

variable {Λ ε : Type}

inductive Step (Λ : Type) where
  | wild
  | exact (label : Λ)
  deriving DecidableEq, Repr

def empty : WildTrie Λ ε :=
  node [] none []

def edges : WildTrie Λ ε → List (Λ × WildTrie Λ ε)
  | node edges _ _ => edges

def wild : WildTrie Λ ε → Option (WildTrie Λ ε)
  | node _ wild _ => wild

def entries : WildTrie Λ ε → List ε
  | node _ _ entries => entries

/-! ## Paths -/

def Child (t : WildTrie Λ ε) : Step Λ → WildTrie Λ ε → Prop
  | .wild, c => t.wild = some c
  | .exact label, c => (label, c) ∈ t.edges

def Leads : WildTrie Λ ε → List (Step Λ) → WildTrie Λ ε → Prop
  | t, [], n => n = t
  | t, s :: p, n => ∃ c, t.Child s c ∧ c.Leads p n

def Holds (t : WildTrie Λ ε) (p : List (Step Λ)) (x : ε) : Prop :=
  ∃ n, t.Leads p n ∧ x ∈ n.entries

@[simp] theorem leads_nil {t n : WildTrie Λ ε} : t.Leads [] n ↔ n = t := by
  simp [Leads]

@[simp] theorem leads_cons {t n : WildTrie Λ ε} {s : Step Λ} {p : List (Step Λ)} :
    t.Leads (s :: p) n ↔ ∃ c, t.Child s c ∧ c.Leads p n := by
  simp [Leads]

theorem leads_append {t n : WildTrie Λ ε} {p q : List (Step Λ)} :
    t.Leads (p ++ q) n ↔ ∃ m, t.Leads p m ∧ m.Leads q n := by
  induction p generalizing t with
  | nil => simp
  | cons s p ih =>
    simp only [List.cons_append,leads_cons,ih]
    constructor
    · rintro ⟨c,hc,m,hm,hn⟩
      exact ⟨m,⟨c,hc,hm⟩,hn⟩
    · rintro ⟨m,⟨c,hc,hm⟩,hn⟩
      exact ⟨c,hc,m,hm,hn⟩

@[simp] theorem holds_nil {t : WildTrie Λ ε} {x : ε} : t.Holds [] x ↔ x ∈ t.entries := by
  simp [Holds]

theorem holds_cons {t : WildTrie Λ ε} {s : Step Λ} {p : List (Step Λ)} {x : ε} :
    t.Holds (s :: p) x ↔ ∃ c, t.Child s c ∧ c.Holds p x := by
  simp only [Holds,leads_cons]
  constructor
  · rintro ⟨n,⟨c,hc,hn⟩,hx⟩
    exact ⟨c,hc,n,hn,hx⟩
  · rintro ⟨c,hc,n,hn,hx⟩
    exact ⟨n,⟨c,hc,hn⟩,hx⟩

theorem holds_append {t : WildTrie Λ ε} {p q : List (Step Λ)} {x : ε} :
    t.Holds (p ++ q) x ↔ ∃ m, t.Leads p m ∧ m.Holds q x := by
  simp only [Holds,leads_append]
  constructor
  · rintro ⟨n,⟨m,hm,hn⟩,hx⟩
    exact ⟨m,hm,n,hn,hx⟩
  · rintro ⟨m,hm,n,hn,hx⟩
    exact ⟨n,⟨m,hm,hn⟩,hx⟩

/-! ## Subtries without a live entry -/

mutual

/-- Some entry below the node passes the test. -/
def hasEntry (ok : ε → Bool) : WildTrie Λ ε → Bool
  | node edges wild entries => entries.any ok || hasEntryWild ok wild || hasEntryEdges ok edges

def hasEntryWild (ok : ε → Bool) : Option (WildTrie Λ ε) → Bool
  | none => false
  | some t => hasEntry ok t

def hasEntryEdges (ok : ε → Bool) : List (Λ × WildTrie Λ ε) → Bool
  | [] => false
  | (_, t) :: edges => hasEntry ok t || hasEntryEdges ok edges

end

theorem hasEntryWild_iff {ok : ε → Bool} {w : Option (WildTrie Λ ε)} :
    hasEntryWild ok w = true ↔ ∃ c, w = some c ∧ c.hasEntry ok = true := by
  cases w with
  | none => simp [hasEntryWild]
  | some c => simp [hasEntryWild]

theorem hasEntryEdges_iff {ok : ε → Bool} {es : List (Λ × WildTrie Λ ε)} :
    hasEntryEdges ok es = true ↔ ∃ e ∈ es, e.2.hasEntry ok = true := by
  induction es with
  | nil => simp [hasEntryEdges]
  | cons e es ih => simp [hasEntryEdges,ih]

theorem hasEntry_iff_child {ok : ε → Bool} {t : WildTrie Λ ε} :
    t.hasEntry ok = true ↔
      (∃ x ∈ t.entries, ok x = true) ∨ ∃ s c, t.Child s c ∧ c.hasEntry ok = true := by
  cases t with
  | node es w xs =>
    simp only [hasEntry,Bool.or_eq_true,List.any_eq_true,hasEntryWild_iff,hasEntryEdges_iff,
      entries]
    constructor
    · rintro ((h | ⟨c,hc,h⟩) | ⟨e,he,h⟩)
      · exact .inl h
      · exact .inr ⟨.wild,c,hc,h⟩
      · exact .inr ⟨.exact e.1,e.2,he,h⟩
    · rintro (h | ⟨s,c,hc,h⟩)
      · exact .inl (.inl h)
      · cases s with
        | wild => exact .inl (.inr ⟨c,hc,h⟩)
        | exact label => exact .inr ⟨(label, c),hc,h⟩

theorem Child.hasEntry {ok : ε → Bool} {t c : WildTrie Λ ε} {s : Step Λ} (hc : t.Child s c)
    (h : c.hasEntry ok = true) : t.hasEntry ok = true :=
  hasEntry_iff_child.mpr (.inr ⟨s,c,hc,h⟩)

theorem Leads.hasEntry {ok : ε → Bool} {t n : WildTrie Λ ε} {p : List (Step Λ)}
    (hn : t.Leads p n) (h : n.hasEntry ok = true) : t.hasEntry ok = true := by
  induction p generalizing t with
  | nil =>
    simp only [leads_nil] at hn
    exact hn ▸ h
  | cons s p ih =>
    obtain ⟨c,hc,hn⟩ := leads_cons.mp hn
    exact hc.hasEntry (ih hn)

theorem Holds.hasEntry {ok : ε → Bool} {t : WildTrie Λ ε} {p : List (Step Λ)} {x : ε}
    (h : t.Holds p x) (hx : ok x = true) : t.hasEntry ok = true := by
  obtain ⟨n,hn,hmem⟩ := h
  exact hn.hasEntry (hasEntry_iff_child.mpr (.inl ⟨x,hmem,hx⟩))

/-! ## Insertion -/

section Insertion

variable [DecidableEq Λ]

/-- Change the first edge with the label, or add one to a changed empty node. -/
def alterEdges (label : Λ) (f : WildTrie Λ ε → WildTrie Λ ε) :
    List (Λ × WildTrie Λ ε) → List (Λ × WildTrie Λ ε)
  | [] => [(label, f empty)]
  | (l, c) :: es => if l = label then (l, f c) :: es else (l, c) :: alterEdges label f es

/-- Change the node at a path, after creating the nodes of the path that do not exist. -/
def alter (f : WildTrie Λ ε → WildTrie Λ ε) : List (Step Λ) → WildTrie Λ ε → WildTrie Λ ε
  | [], t => f t
  | .wild :: p, node es w xs => node es (some (alter f p (w.getD empty))) xs
  | .exact label :: p, node es w xs => node (alterEdges label (alter f p) es) w xs

def grow (p : List (Step Λ)) (t : WildTrie Λ ε) : WildTrie Λ ε :=
  t.alter id p

def pushEntry (x : ε) : WildTrie Λ ε → WildTrie Λ ε
  | node es w xs => node es w (xs ++ [x])

def store (p : List (Step Λ)) (x : ε) (t : WildTrie Λ ε) : WildTrie Λ ε :=
  t.alter (pushEntry x) p

omit [DecidableEq Λ] in
theorem holds_empty {p : List (Step Λ)} {x : ε} : ¬ (empty : WildTrie Λ ε).Holds p x := by
  intro h
  cases p with
  | nil => simp [empty,entries] at h
  | cons s p =>
    obtain ⟨c,hc,-⟩ := holds_cons.mp h
    cases s with
    | wild => simp [Child,empty,wild] at hc
    | exact label => simp [Child,empty,edges] at hc

/-- What an edge list holds at a path that starts with a label. -/
def HoldsBelow (es : List (Λ × WildTrie Λ ε)) (label : Λ) (q : List (Step Λ)) (x : ε) : Prop :=
  ∃ c, (label, c) ∈ es ∧ c.Holds q x

omit [DecidableEq Λ] in
theorem holdsBelow_cons {l label : Λ} {c : WildTrie Λ ε} {es : List (Λ × WildTrie Λ ε)}
    {q : List (Step Λ)} {x : ε} :
    HoldsBelow ((l, c) :: es) label q x ↔ (l = label ∧ c.Holds q x) ∨ HoldsBelow es label q x := by
  simp only [HoldsBelow,List.mem_cons,Prod.mk.injEq]
  constructor
  · rintro ⟨d,⟨rfl,rfl⟩ | hd,h⟩
    · exact .inl ⟨rfl,h⟩
    · exact .inr ⟨d,hd,h⟩
  · rintro (⟨rfl,h⟩ | ⟨d,hd,h⟩)
    · exact ⟨c,.inl ⟨rfl,rfl⟩,h⟩
    · exact ⟨d,.inr hd,h⟩

theorem holdsBelow_alterEdges {f : WildTrie Λ ε → WildTrie Λ ε} {New : List (Step Λ) → ε → Prop}
    (hf : ∀ t q x, (f t).Holds q x ↔ t.Holds q x ∨ New q x) (label k : Λ)
    (es : List (Λ × WildTrie Λ ε)) (q : List (Step Λ)) (x : ε) :
    HoldsBelow (alterEdges label f es) k q x ↔ HoldsBelow es k q x ∨ (k = label ∧ New q x) := by
  induction es with
  | nil =>
    simp only [alterEdges,holdsBelow_cons,hf]
    simp [HoldsBelow,holds_empty,eq_comm]
  | cons e es ih =>
    obtain ⟨l,c⟩ := e
    by_cases hl : l = label
    · subst hl
      simp only [alterEdges,if_true,holdsBelow_cons,hf]
      tauto
    · simp only [alterEdges,if_neg hl,holdsBelow_cons,ih]
      tauto

theorem holds_alter {f : WildTrie Λ ε → WildTrie Λ ε} {New : List (Step Λ) → ε → Prop}
    (hf : ∀ t q x, (f t).Holds q x ↔ t.Holds q x ∨ New q x) (p : List (Step Λ))
    (t : WildTrie Λ ε) (q : List (Step Λ)) (x : ε) :
    (t.alter f p).Holds q x ↔ t.Holds q x ∨ ∃ r, q = p ++ r ∧ New r x := by
  induction p generalizing t q x with
  | nil => simp [alter,hf]
  | cons s p ih =>
    cases t with
    | node es w xs =>
      cases s with
      | wild =>
        cases q with
        | nil => simp [alter,entries]
        | cons s q =>
          cases s with
          | wild =>
            cases w with
            | none => simp [alter,holds_cons,Child,wild,ih,holds_empty]
            | some c => simp [alter,holds_cons,Child,wild,ih]
          | exact k => simp [alter,holds_cons,Child,edges]
      | exact label =>
        have below := holdsBelow_alterEdges ih label
        cases q with
        | nil => simp [alter,entries]
        | cons s q =>
          cases s with
          | wild => simp [alter,holds_cons,Child,wild]
          | exact k =>
            simp only [alter,holds_cons,Child,edges]
            refine (below k es q x).trans (or_congr Iff.rfl ?_)
            simp [and_assoc]

@[simp] theorem holds_grow (p q : List (Step Λ)) (t : WildTrie Λ ε) (x : ε) :
    (t.grow p).Holds q x ↔ t.Holds q x := by
  have hid : ∀ (t : WildTrie Λ ε) q x, (id t).Holds q x ↔ t.Holds q x ∨ False := by simp
  simp [grow,holds_alter hid]

theorem holds_store (p q : List (Step Λ)) (t : WildTrie Λ ε) (x y : ε) :
    (t.store p y).Holds q x ↔ t.Holds q x ∨ (q = p ∧ x = y) := by
  have hpush : ∀ (t : WildTrie Λ ε) q x,
      (pushEntry y t).Holds q x ↔ t.Holds q x ∨ (q = [] ∧ x = y) := by
    intro t q x
    cases t with
    | node es w xs =>
      cases q with
      | nil => simp [pushEntry,entries]
      | cons s q => cases s <;> simp [pushEntry,holds_cons,Child,wild,edges]
  simp only [store,holds_alter hpush]
  simp

end Insertion

end WildTrie

end PgOrca
