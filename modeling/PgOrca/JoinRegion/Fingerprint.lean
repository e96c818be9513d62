import PgOrca.JoinRegion.Spec
import PgOrca.Library.Matching

/-!
# Fingerprints of regions

`Matches` tries the assignments of atoms one by one and compares the rest greedily. That is exact:
whatever suits one of two equal elements suits the other as well.
-/

namespace PgOrca

open Finset Multiset

structure SFingerprintEdge (P : Type*) where
  joinType : JoinType
  left : Finset ℕ
  right : Finset ℕ
  notinComparison : Option P
  conflictRules : List CConflictRule

/-- All node sets speak of the atoms of the region. -/
structure CDPHyperGraphFingerprint (α P : Type*) where
  atoms : List α
  predicates : List P
  edges : List (SFingerprintEdge P)
  dependencies : List (Finset ℕ)
  length_dependencies : dependencies.length = atoms.length
  dependencies_lt : ∀ s ∈ dependencies, ∀ i ∈ s, i < atoms.length
  left_lt : ∀ e ∈ edges, ∀ i ∈ e.left, i < atoms.length
  right_lt : ∀ e ∈ edges, ∀ i ∈ e.right, i < atoms.length
  rules_lt : ∀ e ∈ edges, ∀ rule ∈ e.conflictRules,
    (∀ i ∈ rule.activate, i < atoms.length) ∧ ∀ i ∈ rule.required, i < atoms.length

structure SMatchers (α P : Type*) where
  fAtomMatches : α → α → Bool
  exprMatches : P → P → Bool
  exprEquals : P → P → Bool

/-- Matching atoms and expressions are equivalence relations. -/
structure SMatchers.Lawful {α P : Type*} (m : SMatchers α P) : Prop where
  fAtomMatches : Equivalence fun a b => m.fAtomMatches a b = true
  exprMatches : Equivalence fun p q => m.exprMatches p q = true
  exprEquals : Equivalence fun p q => m.exprEquals p q = true

namespace CDPHyperGraphFingerprint

variable {α P : Type*} {σ τ : ℕ → ℕ} {edge other : SFingerprintEdge P}

def fCommutativeJoin (joinType : JoinType) : Bool := joinType = .inner ∨ joinType = .fullOuter

variable (mapping : List ℕ)

/-- `PbsMap`; the source asserts that every bit has been mapped. -/
def pbsMap (source : Finset ℕ) : Finset ℕ :=
  source.image fun i => mapping.getD i 0

/-- `CUtils::Equals` for comparisons that may be null. -/
def notinEquals (m : SMatchers α P) : Option P → Option P → Bool
  | none, none => true
  | some left, some right => m.exprEquals left right
  | _, _ => false

def ruleMatches (rule other : CConflictRule) : Bool :=
  pbsMap mapping rule.activate = other.activate ∧ pbsMap mapping rule.required = other.required

def edgeMatches (m : SMatchers α P) (mapping : List ℕ) (edge candidate : SFingerprintEdge P) : Bool :=
  if edge.joinType ≠ candidate.joinType ∨
      ¬ notinEquals m edge.notinComparison candidate.notinComparison ∨
      edge.conflictRules.length ≠ candidate.conflictRules.length then false
  else
    let mappedLeft := pbsMap mapping edge.left
    let mappedRight := pbsMap mapping edge.right
    let direct := mappedLeft = candidate.left ∧ mappedRight = candidate.right
    let reverse := fCommutativeJoin edge.joinType ∧ mappedLeft = candidate.right ∧
      mappedRight = candidate.left
    if ¬ direct ∧ ¬ reverse then false
    else matchAll (ruleMatches mapping) edge.conflictRules candidate.conflictRules

/-- What is checked of a complete assignment. -/
def checkMapping (m : SMatchers α P) (f g : CDPHyperGraphFingerprint α P) (mapping : List ℕ) : Bool :=
  ((List.range f.dependencies.length).all fun dependent =>
    pbsMap mapping (f.dependencies.getD dependent ∅) =
      g.dependencies.getD (mapping.getD dependent 0) ∅) &&
  matchAll (edgeMatches m mapping) f.edges g.edges

def atomAccepts (m : SMatchers α P) (g : CDPHyperGraphFingerprint α P) (atom : α) (candidate : ℕ) :
    Bool :=
  g.atoms[candidate]?.any fun other => m.fAtomMatches atom other

/-- `Matches`. An atom is used when the assignment so far contains it. -/
def fMatches (m : SMatchers α P) (f g : CDPHyperGraphFingerprint α P) : Bool :=
  f.atoms.length = g.atoms.length && f.edges.length = g.edges.length &&
    f.dependencies.length = g.dependencies.length &&
    (f.predicates.length = g.predicates.length &&
      matchAll m.exprMatches f.predicates g.predicates) &&
    assignEach g.atoms.length (atomAccepts m g) (checkMapping m f g) f.atoms []

/-! ## Isomorphic regions -/

def mapRule (σ : ℕ → ℕ) (rule : CConflictRule) : CConflictRule :=
  ⟨rule.activate.image σ, rule.required.image σ⟩

/-- The edges are equal after renaming, up to the order of the sides of a commutative join and the
order of the conflict rules. -/
structure EdgeIso (m : SMatchers α P) (σ : ℕ → ℕ) (edge other : SFingerprintEdge P) : Prop where
  joinType : edge.joinType = other.joinType
  notin : notinEquals m edge.notinComparison other.notinComparison = true
  sides : (edge.left.image σ = other.left ∧ edge.right.image σ = other.right) ∨
    fCommutativeJoin edge.joinType = true ∧
      edge.left.image σ = other.right ∧ edge.right.image σ = other.left
  rules : (edge.conflictRules : Multiset CConflictRule).map (mapRule σ) = other.conflictRules

/-- A renaming of the atoms that carries one region onto the other. -/
structure Isomorphism (m : SMatchers α P) (f g : CDPHyperGraphFingerprint α P) (σ : ℕ → ℕ) :
    Prop where
  bijOn : Set.BijOn σ (Set.Iio f.atoms.length) (Set.Iio g.atoms.length)
  atoms : ∀ i a b, f.atoms[i]? = some a → g.atoms[σ i]? = some b → m.fAtomMatches a b = true
  dependencies : ∀ i < f.atoms.length,
    (f.dependencies.getD i ∅).image σ = g.dependencies.getD (σ i) ∅
  edges : Multiset.Rel (EdgeIso m σ) (f.edges : Multiset (SFingerprintEdge P)) g.edges

/-- The regions are the same up to the numbering of the atoms. -/
structure Isomorphic (m : SMatchers α P) (f g : CDPHyperGraphFingerprint α P) : Prop where
  predicates : Multiset.Rel (fun p q => m.exprMatches p q = true)
    (f.predicates : Multiset P) g.predicates
  atoms : ∃ σ, Isomorphism m f g σ

variable {m : SMatchers α P} {f g : CDPHyperGraphFingerprint α P}

theorem notinEquals_equivalence (hm : m.Lawful) :
    Equivalence fun p q => notinEquals m p q = true where
  refl
    | none => rfl
    | some p => hm.exprEquals.refl p
  symm {p q} h :=
    match p, q, h with
    | none, none, _ => rfl
    | some _, some _, h => hm.exprEquals.symm h
  trans {p q r} h h' :=
    match p, q, r, h, h' with
    | none, none, none, _, _ => rfl
    | some _, some _, some _, h, h' => hm.exprEquals.trans h h'

theorem zigzag_of_equivalence {β : Type*} {r : β → β → Bool}
    (h : Equivalence fun a b => r a b = true) : Zigzag r :=
  fun _ _ _ _ hab ha'b ha'b' => h.trans hab (h.trans (h.symm ha'b) ha'b')

theorem ruleMatches_iff (rule other : CConflictRule) :
    ruleMatches mapping rule other = true ↔ mapRule (fun i => mapping.getD i 0) rule = other := by
  rw [ruleMatches,decide_eq_true_eq]
  obtain ⟨activate,required⟩ := other
  exact ⟨fun h => congrArg₂ CConflictRule.mk h.1 h.2,fun h =>
    ⟨congrArg CConflictRule.activate h,congrArg CConflictRule.required h⟩⟩

theorem matchAll_ruleMatches_iff {left right : List CConflictRule}
    (hlen : left.length = right.length) :
    matchAll (ruleMatches mapping) left right = true ↔
      (left : Multiset CConflictRule).map (mapRule fun i => mapping.getD i 0) = right := by
  have hzig : Zigzag (ruleMatches mapping) := by
    intro rule rule' other other' h h' h''
    rw [ruleMatches_iff] at h h' h'' ⊢
    rw [h,← h',h'']
  rw [matchAll_iff hzig hlen,← rel_eq,rel_map_left]
  simp only [ruleMatches_iff]

theorem edgeMatches_iff (edge candidate : SFingerprintEdge P) :
    edgeMatches m mapping edge candidate = true ↔
      EdgeIso m (fun i => mapping.getD i 0) edge candidate := by
  simp only [edgeMatches]
  split
  case isTrue hgu =>
    simp only [Bool.false_eq_true,false_iff]
    intro hiso
    rcases hgu with hne | hne | hne
    · exact hne hiso.joinType
    · exact hne hiso.notin
    · apply hne
      have hcard := congrArg Multiset.card hiso.rules
      simpa using hcard
  case isFalse hgu =>
    simp only [not_or,not_not] at hgu
    obtain ⟨htype,hni,hlen⟩ := hgu
    split
    case isTrue hsd =>
      simp only [Bool.false_eq_true,false_iff]
      intro hiso
      rcases hiso.sides with hdir | hrev
      · exact hsd.1 hdir
      · exact hsd.2 hrev
    case isFalse hsd =>
      rw [matchAll_ruleMatches_iff mapping hlen]
      refine ⟨fun hrl => ⟨htype,hni,?_,hrl⟩,fun hiso => hiso.rules⟩
      rw [← not_or,not_not] at hsd
      exact hsd

/-! ## Isomorphisms compose -/

theorem image_congr_lt {n : ℕ} (h : ∀ i < n, σ i = τ i) {s : Finset ℕ}
    (hs : ∀ i ∈ s, i < n) : s.image σ = s.image τ :=
  image_congr fun i hi => h i (hs i hi)

theorem getD_dependencies_lt (f : CDPHyperGraphFingerprint α P) (i : ℕ) :
    ∀ j ∈ f.dependencies.getD i ∅, j < f.atoms.length := by
  intro j hj
  rw [List.getD_eq_getElem?_getD] at hj
  cases hget : f.dependencies[i]? with
  | none =>
    rw [hget] at hj
    exact (notMem_empty j hj).elim
  | some s =>
    rw [hget] at hj
    exact f.dependencies_lt s (List.mem_of_getElem? hget) j hj

theorem EdgeIso.congr (hedge : edge ∈ f.edges) (h : ∀ i < f.atoms.length, σ i = τ i)
    (hiso : EdgeIso m σ edge other) : EdgeIso m τ edge other := by
  have hleft := image_congr_lt h (f.left_lt edge hedge)
  have hr := image_congr_lt h (f.right_lt edge hedge)
  refine ⟨hiso.joinType,hiso.notin,?_,?_⟩
  · rw [← hleft,← hr]
    exact hiso.sides
  · rw [← hiso.rules]
    refine Multiset.map_congr rfl fun rule hrule => ?_
    obtain ⟨hact,hre⟩ := f.rules_lt edge hedge rule hrule
    rw [mapRule,mapRule,image_congr_lt h hact,image_congr_lt h hre]

theorem Isomorphism.congr (hiso : Isomorphism m f g σ)
    (h : ∀ i < f.atoms.length, σ i = τ i) : Isomorphism m f g τ := by
  refine ⟨hiso.bijOn.congr fun i hi => h i hi,fun i a b ha hb => ?_,fun i hi => ?_,?_⟩
  · have hi : i < f.atoms.length := (List.getElem?_eq_some_iff.mp ha).1
    rw [← h i hi] at hb
    exact hiso.atoms i a b ha hb
  · rw [← h i hi,← image_congr_lt h (getD_dependencies_lt f i)]
    exact hiso.dependencies i hi
  · exact hiso.edges.mono fun edge hedge _ _ hiso => hiso.congr hedge h

theorem EdgeIso.comp (hm : m.Lawful) {third : SFingerprintEdge P} (h : EdgeIso m σ edge other)
    (h' : EdgeIso m τ other third) : EdgeIso m (τ ∘ σ) edge third := by
  refine ⟨h.joinType.trans h'.joinType,(notinEquals_equivalence hm).trans h.notin h'.notin,?_,?_⟩
  · rw [← image_image,← image_image]
    have hcomm := h.joinType
    rcases h.sides with ⟨hl,hr⟩ | ⟨hc,hl,hr⟩
    · rw [hl,hr,hcomm]
      exact h'.sides
    · rw [hl,hr,hcomm]
      rcases h'.sides with ⟨hl',hr'⟩ | ⟨_,hl',hr'⟩
      · exact .inr ⟨hcomm ▸ hc,hr',hl'⟩
      · exact .inl ⟨hr',hl'⟩
  · rw [← h'.rules,← h.rules,Multiset.map_map]
    refine Multiset.map_congr rfl fun rule _ => ?_
    simp only [Function.comp_apply,mapRule,image_image]

theorem EdgeIso.symm (hm : m.Lawful) (hedge : edge ∈ f.edges)
    (hinv : ∀ i < f.atoms.length, (τ ∘ σ) i = i)
    (h : EdgeIso m σ edge other) : EdgeIso m τ other edge := by
  have hback {s : Finset ℕ} (hs : ∀ i ∈ s, i < f.atoms.length) : (s.image σ).image τ = s := by
    rw [image_image]
    exact (image_congr_lt hinv hs).trans image_id
  have hleft := hback (f.left_lt edge hedge)
  have hrt := hback (f.right_lt edge hedge)
  refine ⟨h.joinType.symm,(notinEquals_equivalence hm).symm h.notin,?_,?_⟩
  · rcases h.sides with ⟨hl,hr⟩ | ⟨hc,hl,hr⟩
    · rw [← hl,← hr]
      exact .inl ⟨hleft,hrt⟩
    · rw [← hl,← hr]
      exact .inr ⟨h.joinType ▸ hc,hrt,hleft⟩
  · rw [← h.rules,Multiset.map_map]
    refine (Multiset.map_congr rfl fun rule hrule => ?_).trans (map_id _)
    obtain ⟨hact,hre⟩ := f.rules_lt edge hedge rule hrule
    simp only [Function.comp_apply,mapRule,hback hact,hback hre,id]

theorem Isomorphism.lt (h : Isomorphism m f g σ) {i : ℕ} (hi : i < f.atoms.length) :
    σ i < g.atoms.length := h.bijOn.mapsTo hi

theorem isomorphism_id (hm : m.Lawful) (f : CDPHyperGraphFingerprint α P) :
    Isomorphism m f f id := by
  refine ⟨Set.bijOn_id _,fun i a b ha hb => ?_,fun i _ => image_id,?_⟩
  · rw [id,ha] at hb
    cases hb
    exact hm.fAtomMatches.refl a
  · refine rel_refl_of_refl_on fun edge _ => ⟨rfl,?_,?_,?_⟩
    · exact (notinEquals_equivalence hm).refl _
    · exact .inl ⟨image_id,image_id⟩
    · refine (Multiset.map_congr rfl fun rule _ => ?_).trans (map_id _)
      rw [mapRule,image_id,image_id]
      rfl

theorem Isomorphism.comp (hm : m.Lawful) {h : CDPHyperGraphFingerprint α P}
    (hfg : Isomorphism m f g σ) (hgh : Isomorphism m g h τ) : Isomorphism m f h (τ ∘ σ) := by
  refine ⟨hgh.bijOn.comp hfg.bijOn,fun i a c ha hc => ?_,fun i hi => ?_,?_⟩
  · have hi : i < f.atoms.length := (List.getElem?_eq_some_iff.mp ha).1
    obtain ⟨b,hb⟩ : ∃ b, g.atoms[σ i]? = some b := ⟨_,List.getElem?_eq_getElem (hfg.lt hi)⟩
    exact hm.fAtomMatches.trans (hfg.atoms i a b ha hb) (hgh.atoms (σ i) b c hb hc)
  · rw [← image_image,hfg.dependencies i hi]
    exact hgh.dependencies (σ i) (hfg.lt hi)
  · exact rel_comp (fun _ _ _ h h' => h.comp hm h') hfg.edges hgh.edges

theorem Isomorphism.symm (hm : m.Lawful) (h : Isomorphism m f g σ) : ∃ τ, Isomorphism m g f τ := by
  classical
  have hinv : Set.InvOn (Function.invFunOn σ (Set.Iio f.atoms.length)) σ
      (Set.Iio f.atoms.length) (Set.Iio g.atoms.length) := h.bijOn.invOn_invFunOn
  generalize Function.invFunOn σ (Set.Iio f.atoms.length) = τ at hinv
  have hbij : Set.BijOn τ (Set.Iio g.atoms.length) (Set.Iio f.atoms.length) :=
    h.bijOn.symm hinv.symm
  have hleft : ∀ i < f.atoms.length, (τ ∘ σ) i = i := fun i hi => hinv.1 hi
  have hr : ∀ i < g.atoms.length, σ (τ i) = i := fun i hi => hinv.2 hi
  refine ⟨τ,hbij,fun i b a hb ha => ?_,fun i hi => ?_,?_⟩
  · have hi : i < g.atoms.length := (List.getElem?_eq_some_iff.mp hb).1
    refine hm.fAtomMatches.symm (h.atoms (τ i) a b ha ?_)
    rw [hr i hi]
    exact hb
  · have hi' : τ i < f.atoms.length := hbij.mapsTo hi
    have hdep := h.dependencies (τ i) hi'
    rw [hr i hi] at hdep
    rw [← hdep,image_image]
    exact (image_congr_lt hleft (getD_dependencies_lt f (τ i))).trans image_id
  · have hback : Multiset.Rel (fun edge other => EdgeIso m τ other edge)
        (f.edges : Multiset (SFingerprintEdge P)) g.edges :=
      h.edges.mono fun edge hedge _ _ hiso => hiso.symm hm hedge hleft
    exact rel_flip.mp hback

theorem isomorphic_equivalence (hm : m.Lawful) : Equivalence (Isomorphic m) := by
  refine ⟨fun f => ⟨?_,id,isomorphism_id hm f⟩,fun {f g} h => ⟨?_,?_⟩,fun {f g k} h h' => ⟨?_,?_⟩⟩
  · exact rel_refl_of_refl_on fun p _ => hm.exprMatches.refl p
  · have hback : Multiset.Rel (fun p q => m.exprMatches q p = true) (f.predicates : Multiset P)
        g.predicates := h.predicates.mono fun p _ q _ hpq => hm.exprMatches.symm hpq
    exact rel_flip.mp hback
  · obtain ⟨σ,hσ⟩ := h.atoms
    exact hσ.symm hm
  · refine rel_comp (fun p q r hpq hqr => ?_) h.predicates h'.predicates
    exact hm.exprMatches.trans hpq hqr
  · obtain ⟨σ,hσ⟩ := h.atoms
    obtain ⟨τ,hτ⟩ := h'.atoms
    exact ⟨τ ∘ σ,hσ.comp hm hτ⟩

/-! ## Assignments and isomorphisms -/

theorem Isomorphism.length_eq (h : Isomorphism m f g σ) : f.atoms.length = g.atoms.length := by
  have hcard := Set.BijOn.ncard_eq h.bijOn
  rw [← coe_Iio,← coe_Iio,Set.ncard_coe_finset,Set.ncard_coe_finset] at hcard
  simpa using hcard

theorem zigzag_edgeMatches (hm : m.Lawful) (mapping : List ℕ) : Zigzag (edgeMatches m mapping) := by
  intro edge edge' other other' h h' h''
  rw [edgeMatches_iff] at h h' h'' ⊢
  have hequiv := notinEquals_equivalence hm
  have htype : edge'.joinType = edge.joinType := h'.joinType.trans h.joinType.symm
  refine ⟨htype ▸ h''.joinType,hequiv.trans h.notin (hequiv.trans (hequiv.symm h'.notin) h''.notin),
    ?_,h.rules.trans (h'.rules.symm.trans h''.rules)⟩
  have hs' := h'.sides
  have hs'' := h''.sides
  rw [htype] at hs' hs''
  -- equal unordered pairs of sides, of the two edges and of the two candidates
  rcases h.sides with ⟨hl,hr⟩ | ⟨hc,hl,hr⟩ <;> rcases hs' with ⟨hl',hr'⟩ | ⟨hc',hl',hr'⟩ <;>
    rw [hl,hr] <;> rw [hl',hr'] at hs''
  · exact hs''
  · rcases hs'' with ⟨hl'',hr''⟩ | ⟨hc'',hl'',hr''⟩
    · exact .inr ⟨hc',hr'',hl''⟩
    · exact .inl ⟨hr'',hl''⟩
  · rcases hs'' with ⟨hl'',hr''⟩ | ⟨hc'',hl'',hr''⟩
    · exact .inr ⟨hc,hr'',hl''⟩
    · exact .inl ⟨hr'',hl''⟩
  · exact hs''

/-- The check of an assignment compares what an isomorphism has to preserve. -/
theorem checkMapping_iff (hm : m.Lawful) {mapping : List ℕ}
    (hes : f.edges.length = g.edges.length) :
    checkMapping m f g mapping = true ↔
      (∀ i < f.atoms.length, (f.dependencies.getD i ∅).image (fun i => mapping.getD i 0) =
        g.dependencies.getD (mapping.getD i 0) ∅) ∧
      Multiset.Rel (EdgeIso m fun i => mapping.getD i 0)
        (f.edges : Multiset (SFingerprintEdge P)) g.edges := by
  rw [checkMapping,Bool.and_eq_true,matchAll_iff (zigzag_edgeMatches hm mapping) hes,
    List.all_eq_true,f.length_dependencies]
  simp only [edgeMatches_iff,List.mem_range,decide_eq_true_eq]
  rfl

theorem atomAccepts_iff {atom : α} {candidate : ℕ} :
    atomAccepts m g atom candidate = true ↔
      ∃ other, g.atoms[candidate]? = some other ∧ m.fAtomMatches atom other = true := by
  rw [atomAccepts,Option.any_eq_true]

theorem forall₂_iff_getElem? {R : α → ℕ → Prop} {atoms : List α} {mapping : List ℕ} :
    List.Forall₂ R atoms mapping ↔ atoms.length = mapping.length ∧
      ∀ i a, atoms[i]? = some a → R a (mapping.getD i 0) := by
  rw [List.forall₂_iff_get]
  refine and_congr_right fun hlen => ⟨fun h i a ha => ?_,fun h i hi hi' => ?_⟩
  · obtain ⟨hi,rfl⟩ := List.getElem?_eq_some_iff.mp ha
    have hi' : i < mapping.length := hlen ▸ hi
    rw [List.getD_eq_getElem?_getD,List.getElem?_eq_getElem hi']
    exact h i hi hi'
  · have hat := h i _ (List.getElem?_eq_getElem hi)
    rw [List.getD_eq_getElem?_getD,List.getElem?_eq_getElem hi'] at hat
    exact hat

theorem assignEach_checkMapping_iff (hm : m.Lawful) (has : f.atoms.length = g.atoms.length)
    (hes : f.edges.length = g.edges.length) :
    assignEach g.atoms.length (atomAccepts m g) (checkMapping m f g) f.atoms [] = true ↔
      ∃ σ, Isomorphism m f g σ := by
  rw [assignEach_iff f.atoms [] List.nodup_nil]
  simp only [List.nil_append,checkMapping_iff hm hes]
  constructor
  · rintro ⟨mapping,hall,hnd,hdep,hrel⟩
    obtain ⟨hlen,hat⟩ := forall₂_iff_getElem?.mp hall
    have hlt : ∀ i < f.atoms.length, mapping.getD i 0 < g.atoms.length := by
      intro i hi
      exact (hat i _ (List.getElem?_eq_getElem hi)).1
    have hmaps : Set.MapsTo (fun i => mapping.getD i 0) (Set.Iio f.atoms.length)
        (Set.Iio g.atoms.length) := fun i hi => hlt i hi
    have hinj : Set.InjOn (fun i => mapping.getD i 0) (Set.Iio f.atoms.length) := by
      intro i hi j hj hij
      have hi' : i < mapping.length := hlen ▸ hi
      have hj' : j < mapping.length := hlen ▸ hj
      simp only [List.getD_eq_getElem?_getD,List.getElem?_eq_getElem hi',
        List.getElem?_eq_getElem hj',Option.getD_some] at hij
      exact hnd.getElem_inj_iff.mp hij
    refine ⟨_,⟨hmaps,hinj,?_⟩,fun i a b ha hb => ?_,hdep,hrel⟩
    · rw [← coe_Iio,← coe_Iio] at hmaps
      rw [← coe_Iio] at hinj
      rw [← coe_Iio,← coe_Iio]
      exact surjOn_of_injOn_of_card_le _ hmaps hinj (by rw [has])
    · obtain ⟨other,hoth,hmt⟩ := atomAccepts_iff.mp (hat i a ha).2
      rw [hb] at hoth
      cases hoth
      exact hmt
  · rintro ⟨σ,hσ⟩
    have hget : ∀ i < f.atoms.length, σ i = ((List.range f.atoms.length).map σ).getD i 0 := by
      intro i hi
      rw [List.getD_eq_getElem?_getD,List.getElem?_map,List.getElem?_range hi]
      rfl
    have hiso := hσ.congr hget
    refine ⟨(List.range f.atoms.length).map σ,forall₂_iff_getElem?.mpr ⟨by simp,?_⟩,?_,
      hiso.dependencies,hiso.edges⟩
    · intro i a ha
      have hi : i < f.atoms.length := (List.getElem?_eq_some_iff.mp ha).1
      refine ⟨hiso.lt hi,atomAccepts_iff.mpr ?_⟩
      obtain ⟨b,hb⟩ : ∃ b, g.atoms[((List.range f.atoms.length).map σ).getD i 0]? = some b :=
        ⟨_,List.getElem?_eq_getElem (hiso.lt hi)⟩
      exact ⟨b,hb,hiso.atoms i a b ha hb⟩
    · refine (List.nodup_map_iff_inj_on List.nodup_range).mpr fun i hi j hj hij => ?_
      exact hσ.bijOn.injOn (List.mem_range.mp hi) (List.mem_range.mp hj) hij

/-- `Matches` is exact: it holds when, and only when, the regions are the same up to the numbering of
their atoms. -/
theorem fMatches_iff (hm : m.Lawful) (f g : CDPHyperGraphFingerprint α P) :
    fMatches m f g = true ↔ Isomorphic m f g := by
  simp only [fMatches,Bool.and_eq_true,decide_eq_true_eq]
  have hzig : Zigzag m.exprMatches := zigzag_of_equivalence hm.exprMatches
  constructor
  · rintro ⟨⟨⟨⟨has,hes⟩,_⟩,hps,hmt⟩,hass⟩
    exact ⟨(matchAll_iff hzig hps).mp hmt,(assignEach_checkMapping_iff hm has hes).mp hass⟩
  · rintro ⟨hps,σ,hσ⟩
    have has := hσ.length_eq
    have hes : f.edges.length = g.edges.length := card_eq_card_of_rel hσ.edges
    have hlen : f.predicates.length = g.predicates.length :=
      card_eq_card_of_rel hps
    refine ⟨⟨⟨⟨has,hes⟩,?_⟩,hlen,(matchAll_iff hzig hlen).mpr hps⟩,
      (assignEach_checkMapping_iff hm has hes).mpr ⟨σ,hσ⟩⟩
    rw [f.length_dependencies,g.length_dependencies,has]

/-- For all fingerprints, with matching of atoms and of expressions equivalence relations: `Matches` is
graph isomorphism, and so an equivalence relation itself. -/
theorem fMatches_exact (hm : m.Lawful) :
    (∀ f g : CDPHyperGraphFingerprint α P, fMatches m f g = true ↔ Isomorphic m f g) ∧
      Equivalence fun f g : CDPHyperGraphFingerprint α P => fMatches m f g = true := by
  refine ⟨fMatches_iff hm,?_⟩
  simp only [fMatches_iff hm]
  exact isomorphic_equivalence hm

/-! ## Three atoms of one table -/

namespace SelfJoin

def matchers : SMatchers ℕ ℕ :=
  ⟨fun a b => a = b, fun p q => p = q, fun p q => p = q⟩

theorem lawful : matchers.Lawful := by
  have heq : Equivalence fun a b : ℕ => decide (a = b) = true := by
    simp only [decide_eq_true_eq]
    exact eq_equivalence
  exact ⟨heq,heq,heq⟩

/-- A semijoin of atom `a` with atom `b`, and an inner join of atom `a` with atom 2. -/
def region (a b : ℕ) (ha : a < 3) (hb : b < 3) : CDPHyperGraphFingerprint ℕ ℕ where
  atoms := [7, 7, 7]
  predicates := [4, 4]
  edges := [⟨.leftSemi, {a}, {b}, none, []⟩, ⟨.inner, {a}, {2}, none, [⟨{b}, {a}⟩]⟩]
  dependencies := [∅, ∅, ∅]
  length_dependencies := rfl
  dependencies_lt := by simp
  left_lt := by simpa using ha
  right_lt := by simpa using hb
  rules_lt := by simpa using ⟨hb, ha⟩

/-- Exchanging two atoms gives the same region. An inner join of atom 2 with itself is another one. -/
theorem fMatches_exact_exchanged :
    Isomorphic matchers (region 0 1 (by decide) (by decide)) (region 1 0 (by decide) (by decide)) ∧
      ¬ Isomorphic matchers (region 0 1 (by decide) (by decide))
        (region 2 1 (by decide) (by decide)) := by
  obtain ⟨hiff,_⟩ := fMatches_exact lawful
  exact ⟨(hiff _ _).mp (by decide +kernel),fun h => absurd ((hiff _ _).mpr h) (by decide +kernel)⟩

end SelfJoin

end CDPHyperGraphFingerprint

end PgOrca
