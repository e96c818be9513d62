import PgOrca.DSL.Policy

/-!
# Compiling a policy

An entry for a rule is resolved, but the entry for `*` is copied as it is: a rule without an entry
of its own can be left in no list, or be scheduled although it reorders joins.
-/

namespace PgOrca.DSL

open List Option

/-- Rules are told apart by their addresses, of type `ρ`. -/
structure CDSLPolicySnapshot (ρ : Type*) where
  policies : List SDSLRulePolicy
  ruleToPolicy : List (ρ × ℕ)
  rboRules : EDslRulePhase → List ρ
  cboRules : List ρ
  explicitPolicy : Bool

namespace CDSLPolicySnapshot

variable {ρ : Type*} [DecidableEq ρ]

def defaultPolicy (identity : List Char) : SDSLRulePolicy := { ruleIdentity := identity }

def defaultEntry (policy : List SDSLRulePolicy) : Option SDSLRulePolicy :=
  policy.reverse.find? fun entry => entry.ruleIdentity = ['*']

def configured (policy : List SDSLRulePolicy) : List SDSLRulePolicy :=
  policy.filter fun entry => entry.ruleIdentity ≠ ['*']

def findConfigured (policy : List SDSLRulePolicy) (identity : List Char) : Option SDSLRulePolicy :=
  (configured policy).find? fun entry => entry.ruleIdentity = identity

/-- What the placement `auto` of an entry stands for. -/
def resolveAuto (entry : SDSLRulePolicy) : SDSLRulePolicy :=
  if entry.placement = .auto then
    match entry.effect with
    | .changesJoinGraph =>
      { entry with placement := .rbo, phase := if entry.phase = .explore then .preJoin else entry.phase }
    | .preservesJoinGraph => { entry with placement := .cbo, phase := .explore }
    | .joinReordering => { entry with placement := .rejected }
  else entry

def rejectReordering (entry : SDSLRulePolicy) : SDSLRulePolicy :=
  if entry.effect = .joinReordering then { entry with placement := .rejected } else entry

def resolve (policy : List SDSLRulePolicy) (identity : List Char) : SDSLRulePolicy :=
  match findConfigured policy identity with
  | some entry => rejectReordering (resolveAuto entry)
  | none => { (defaultEntry policy).getD (defaultPolicy identity) with ruleIdentity := identity }

/-- `Ppolicy`: the policy at the index of the rule, whose first insertion counts. -/
def ppolicy (s : CDSLPolicySnapshot ρ) (rule : ρ) : Option SDSLRulePolicy :=
  (s.ruleToPolicy.find? fun entry => entry.1 = rule).bind fun entry => s.policies[entry.2]?

def policy (s : CDSLPolicySnapshot ρ) (rule : ρ) : SDSLRulePolicy := (s.ppolicy rule).getD {}

/-- The rules of a phase in the order of their priorities. The sort is stable. -/
def sortByPriority (s : CDSLPolicySnapshot ρ) (rules : List ρ) : List ρ :=
  rules.insertionSort fun left right => (s.policy right).priority ≤ (s.policy left).priority

section

variable (szIdentity : ρ → List Char) (rules : List ρ) (given : Option (List SDSLRulePolicy))

def bind : CDSLPolicySnapshot ρ where
  policies := rules.map fun rule => resolve (given.getD []) (szIdentity rule)
  ruleToPolicy := rules.zipIdx
  rboRules := fun _ => []
  cboRules := []
  explicitPolicy := given.isSome

/-- `PsnapshotCompile`: the snapshot, unless an entry names an unknown rule, and the errors. -/
def psnapshotCompile : Option (CDSLPolicySnapshot ρ) × List String :=
  let unknown := (configured (given.getD [])).filter fun entry =>
    !(rules.map szIdentity).contains entry.ruleIdentity
  let s := bind szIdentity rules given
  let enabled := rules.filter fun rule => (s.policy rule).enabled
  (if unknown = [] then
    some { s with
      cboRules := enabled.filter fun rule => (s.policy rule).placement = .cbo
      rboRules := fun phase => s.sortByPriority (enabled.filter fun rule =>
        (s.policy rule).placement = .rbo ∧ (s.policy rule).phase ≠ .explore ∧
          (s.policy rule).phase = phase) }
  else none,
  unknown.map fun entry =>
    "policy references unknown rule identity: " ++ String.ofList entry.ruleIdentity)

end

/-! ## What a compiled snapshot should look like -/

inductive Place
  | cbo | rbo (phase : EDslRulePhase) | rejected
  deriving DecidableEq

def At (s : CDSLPolicySnapshot ρ) (rule : ρ) : Place → Prop
  | .cbo => rule ∈ s.cboRules
  | .rbo phase => rule ∈ s.rboRules phase
  | .rejected => (s.policy rule).placement = .rejected

def Unlisted (s : CDSLPolicySnapshot ρ) (rule : ρ) : Prop :=
  rule ∉ s.cboRules ∧ ∀ phase, rule ∉ s.rboRules phase

/-- Every rule of the library is classified. -/
structure Classified (rules : List ρ) (s : CDSLPolicySnapshot ρ) : Prop where
  resolved : ∀ rule ∈ rules, (s.ppolicy rule).isSome
  onePlace : ∀ rule ∈ rules, (s.policy rule).enabled = true → ∃! place, s.At rule place
  explore : s.rboRules .explore = []
  noAuto : ∀ rule ∈ rules, (s.policy rule).placement ≠ .auto
  reordering : ∀ rule ∈ rules, (s.policy rule).effect = .joinReordering → s.Unlisted rule
  disabled : ∀ rule ∈ rules, (s.policy rule).enabled = false → s.Unlisted rule
  sorted : ∀ phase, (s.rboRules phase).Pairwise fun left right =>
    (s.policy right).priority ≤ (s.policy left).priority
  stable : ∀ phase priority, (s.rboRules phase).filter (fun rule => (s.policy rule).priority = priority) =
    rules.filter fun rule => rule ∈ s.rboRules phase ∧ (s.policy rule).priority = priority

/-! ## Resolved policies -/

section

variable {entries : List SDSLRulePolicy} {identity : List Char}

open CDSLPolicyLoader

variable {entry : SDSLRulePolicy}

structure Placed (entry : SDSLRulePolicy) : Prop where
  auto : entry.placement ≠ .auto
  rbo : entry.enabled = true → entry.placement = .rbo → entry.phase ≠ .explore
  reordering : entry.enabled = true → entry.effect = .joinReordering → entry.placement = .rejected

theorem placed_resolveAuto (h : Checked entry) : Placed (rejectReordering (resolveAuto entry)) := by
  obtain ⟨hrbo,_,_⟩ := h
  rcases entry with ⟨_,_,placement,phase,effect,_⟩
  cases effect with
  | joinReordering =>
    cases placement with
    | auto | rbo | cbo | rejected => exact ⟨nofun,nofun,fun _ _ => rfl⟩
  | changesJoinGraph =>
    cases placement with
    | auto =>
      refine ⟨nofun,fun _ _ => ?_,nofun⟩
      cases phase with
      | explore | normalize | preJoin | cleanup => exact nofun
    | rbo => exact ⟨nofun,hrbo,nofun⟩
    | cbo | rejected => exact ⟨nofun,nofun,nofun⟩
  | preservesJoinGraph =>
    cases placement with
    | rbo => exact ⟨nofun,hrbo,nofun⟩
    | auto | cbo | rejected => exact ⟨nofun,nofun,nofun⟩

/-- The default for rules without an entry of their own is resolved as it stands. -/
def DefaultResolved (entries : List SDSLRulePolicy) : Prop :=
  ∀ entry ∈ defaultEntry entries,
    entry.placement ≠ .auto ∧ (entry.enabled = true → entry.effect ≠ .joinReordering)

section

variable (h : ∀ entry ∈ entries, Checked entry)

include h

theorem checked_of_defaultEntry (hen : defaultEntry entries = some entry) : Checked entry :=
  h entry (mem_reverse.mp (List.mem_of_find?_eq_some hen))

theorem checked_of_findConfigured
    (hen : findConfigured entries identity = some entry) : Checked entry :=
  h entry (mem_of_mem_filter (List.mem_of_find?_eq_some hen))

theorem placed_resolve_iff :
    Placed (resolve entries identity) ↔
      (findConfigured entries identity = none → DefaultResolved entries) := by
  cases hfind : findConfigured entries identity with
  | some entry =>
    simp only [resolve,hfind,reduceCtorEq,false_imp_iff,iff_true]
    exact placed_resolveAuto (checked_of_findConfigured h hfind)
  | none =>
    simp only [resolve,hfind,DefaultResolved,true_imp_iff]
    cases hdef : defaultEntry entries with
    | none =>
      simp only [getD_none,not_mem_none,false_imp_iff,implies_true,iff_true]
      exact ⟨nofun,nofun,nofun⟩
    | some entry =>
      have hck := checked_of_defaultEntry h hdef
      simp only [getD_some,mem_some_iff,forall_eq']
      constructor
      · intro hpl
        refine ⟨hpl.auto,fun hen hef => ?_⟩
        exact hck.placement (hpl.reordering hen hef)
      · rintro ⟨hauto,hef⟩
        exact ⟨hauto,hck.rbo,fun hen hreo => (hef hen hreo).elim⟩

end

end

/-! ## The compiled lists -/

section

variable {szIdentity : ρ → List Char} {rules : List ρ} {given : Option (List SDSLRulePolicy)}
  {s : CDSLPolicySnapshot ρ} {rule : ρ}

theorem ppolicy_bind (h : rule ∈ rules) :
    (bind szIdentity rules given).ppolicy rule =
      some (resolve (given.getD []) (szIdentity rule)) := by
  obtain ⟨i,hi⟩ := mem_iff_getElem?.mp h
  have hsome : (rules.zipIdx.find? fun entry => entry.1 = rule).isSome := by
    rw [List.find?_isSome]
    exact ⟨(rule, i),List.mk_mem_zipIdx_iff_getElem?.mpr hi,decide_eq_true rfl⟩
  obtain ⟨entry,hen⟩ := isSome_iff_exists.mp hsome
  have hfd := List.find?_some hen
  have hrule : entry.1 = rule := of_decide_eq_true hfd
  have hget : rules[entry.2]? = some entry.1 :=
    List.mem_zipIdx_iff_getElem?.mp (List.mem_of_find?_eq_some hen)
  simp only [ppolicy,bind,hen,bind_some,List.getElem?_map,hget,map_some,hrule]

/-- The left rule does not come after the right one. -/
abbrev Precedes (s : CDSLPolicySnapshot ρ) (left right : ρ) : Prop :=
  (s.policy right).priority ≤ (s.policy left).priority

theorem filter_sortByPriority (s : CDSLPolicySnapshot ρ) (l : List ρ) (priority : ℤ) :
    (s.sortByPriority l).filter (fun rule => (s.policy rule).priority = priority) =
      l.filter fun rule => (s.policy rule).priority = priority := by
  have hequal : (l.filter fun rule => (s.policy rule).priority = priority).Pairwise s.Precedes := by
    refine pairwise_of_forall_mem_list fun left hleft right hr => ?_
    rw [Precedes,of_decide_eq_true (mem_filter.mp hleft).2,of_decide_eq_true (mem_filter.mp hr).2]
  have hsub := (sublist_insertionSort hequal filter_sublist).filter
    fun rule => decide ((s.policy rule).priority = priority)
  rw [List.filter_filter] at hsub
  simp only [Bool.and_self] at hsub
  have hperm := (perm_insertionSort s.Precedes l).filter
    fun rule => decide ((s.policy rule).priority = priority)
  exact (hsub.eq_of_length hperm.length_eq.symm).symm

theorem pairwise_sortByPriority (s : CDSLPolicySnapshot ρ) (l : List ρ) :
    (s.sortByPriority l).Pairwise s.Precedes := by
  have : Std.Total s.Precedes := ⟨fun left right => le_total _ _⟩
  have : IsTrans ρ s.Precedes := ⟨fun _ _ _ hab hbc => hbc.trans hab⟩
  exact pairwise_insertionSort _ l

/-- What a successful compilation returns. -/
structure Compiled (szIdentity : ρ → List Char) (rules : List ρ)
    (given : Option (List SDSLRulePolicy)) (s : CDSLPolicySnapshot ρ) : Prop where
  ppolicy : ∀ rule ∈ rules, s.ppolicy rule = some (resolve (given.getD []) (szIdentity rule))
  mem_cbo : ∀ rule, rule ∈ s.cboRules ↔ rule ∈ rules ∧ (s.policy rule).enabled = true ∧
    (s.policy rule).placement = .cbo
  mem_rbo : ∀ rule phase, rule ∈ s.rboRules phase ↔ rule ∈ rules ∧
    (s.policy rule).enabled = true ∧ (s.policy rule).placement = .rbo ∧
    (s.policy rule).phase ≠ .explore ∧ (s.policy rule).phase = phase
  sorted : ∀ phase, (s.rboRules phase).Pairwise fun left right =>
    (s.policy right).priority ≤ (s.policy left).priority
  stable : ∀ phase priority, (s.rboRules phase).filter (fun rule => (s.policy rule).priority = priority) =
    rules.filter fun rule => rule ∈ s.rboRules phase ∧ (s.policy rule).priority = priority

theorem psnapshotCompile_spec (h : (psnapshotCompile szIdentity rules given).1 = some s) :
    Compiled szIdentity rules given s := by
  simp only [psnapshotCompile] at h
  split at h
  case isFalse => cases h
  case isTrue =>
    cases h
    have hmem (rule : ρ) (phase : EDslRulePhase) :
        rule ∈ (bind szIdentity rules given).sortByPriority
          ((rules.filter fun rule => ((bind szIdentity rules given).policy rule).enabled).filter
            fun rule => ((bind szIdentity rules given).policy rule).placement = .rbo ∧
              ((bind szIdentity rules given).policy rule).phase ≠ .explore ∧
              ((bind szIdentity rules given).policy rule).phase = phase) ↔
        rule ∈ rules ∧ ((bind szIdentity rules given).policy rule).enabled = true ∧
          ((bind szIdentity rules given).policy rule).placement = .rbo ∧
          ((bind szIdentity rules given).policy rule).phase ≠ .explore ∧
          ((bind szIdentity rules given).policy rule).phase = phase := by
      rw [sortByPriority,mem_insertionSort,mem_filter,mem_filter,decide_eq_true_eq,and_assoc]
    refine ⟨fun rule hrule => ppolicy_bind hrule,fun rule => ?_,hmem,
      fun phase => pairwise_sortByPriority _ _,fun phase priority => ?_⟩
    · change rule ∈ List.filter _ (List.filter _ rules) ↔ _
      rw [mem_filter,mem_filter,decide_eq_true_eq,and_assoc]
      rfl
    · refine (filter_sortByPriority _ _ priority).trans ?_
      rw [List.filter_filter,List.filter_filter]
      refine filter_congr fun rule hrule => ?_
      have hiff := hmem rule phase
      rw [Bool.eq_iff_iff]
      simp only [Bool.and_eq_true,decide_eq_true_eq]
      constructor
      · rintro ⟨⟨hpri,hrbo⟩,hen⟩
        exact ⟨hiff.mpr ⟨hrule,hen,hrbo⟩,hpri⟩
      · rintro ⟨hlis,hpri⟩
        obtain ⟨_,hen,hrbo⟩ := hiff.mp hlis
        exact ⟨⟨hpri,hrbo⟩,hen⟩

theorem Compiled.policy_eq (h : Compiled szIdentity rules given s)
    (hrule : rule ∈ rules) : s.policy rule = resolve (given.getD []) (szIdentity rule) := by
  rw [policy,h.ppolicy rule hrule,getD_some]

def Place.placement : Place → EDslRulePlacement
  | .cbo => .cbo
  | .rbo _ => .rbo
  | .rejected => .rejected

theorem Compiled.placement_of_at (h : Compiled szIdentity rules given s) {place : Place}
    (hat : s.At rule place) : (s.policy rule).placement = place.placement := by
  cases place with
  | cbo => exact ((h.mem_cbo rule).mp hat).2.2
  | rbo phase => exact ((h.mem_rbo rule phase).mp hat).2.2.1
  | rejected => exact hat

theorem Compiled.classified_iff (h : Compiled szIdentity rules given s) :
    Classified rules s ↔ ∀ rule ∈ rules, Placed (s.policy rule) := by
  constructor
  · intro hcl rule hrule
    refine ⟨hcl.noAuto rule hrule,fun hen hpl hph => ?_,fun hen hef => ?_⟩
    · obtain ⟨place,hat,_⟩ := hcl.onePlace rule hrule hen
      have hplc := hpl.symm.trans (h.placement_of_at hat)
      cases place with
      | rbo phase => exact ((h.mem_rbo rule phase).mp hat).2.2.2.1 hph
      | cbo | rejected => cases hplc
    · obtain ⟨hcbo,hrbo⟩ := hcl.reordering rule hrule hef
      obtain ⟨place,hat,_⟩ := hcl.onePlace rule hrule hen
      cases place with
      | cbo => exact (hcbo hat).elim
      | rbo phase => exact (hrbo phase hat).elim
      | rejected => exact hat
  · intro hpld
    refine ⟨fun rule hrule => by rw [h.ppolicy rule hrule]; rfl,fun rule hrule hen => ?_,?_,
      fun rule hrule => (hpld rule hrule).auto,fun rule hrule hef => ?_,
      fun rule hrule hdis => ?_,h.sorted,h.stable⟩
    · obtain ⟨hauto,hrbo,_⟩ := hpld rule hrule
      cases hpl : (s.policy rule).placement with
      | auto => exact (hauto hpl).elim
      | cbo =>
        refine ⟨.cbo,(h.mem_cbo rule).mpr ⟨hrule,hen,hpl⟩,fun place hat => ?_⟩
        have hplc := hpl.symm.trans (h.placement_of_at hat)
        cases place with
        | cbo => rfl
        | rbo | rejected => cases hplc
      | rbo =>
        refine ⟨.rbo (s.policy rule).phase,(h.mem_rbo rule _).mpr
          ⟨hrule,hen,hpl,hrbo hen hpl,rfl⟩,fun place hat => ?_⟩
        have hplc := hpl.symm.trans (h.placement_of_at hat)
        cases place with
        | rbo phase => rw [((h.mem_rbo rule phase).mp hat).2.2.2.2]
        | cbo | rejected => cases hplc
      | rejected =>
        refine ⟨.rejected,hpl,fun place hat => ?_⟩
        have hplc := hpl.symm.trans (h.placement_of_at hat)
        cases place with
        | rejected => rfl
        | cbo | rbo => cases hplc
    · refine eq_nil_iff_forall_not_mem.mpr fun rule hmem => ?_
      obtain ⟨_,_,_,hne,heq⟩ := (h.mem_rbo rule .explore).mp hmem
      exact hne heq
    · refine ⟨fun hmem => ?_,fun phase hmem => ?_⟩
      · obtain ⟨_,hen,hcbo⟩ := (h.mem_cbo rule).mp hmem
        rw [(hpld rule hrule).reordering hen hef] at hcbo
        cases hcbo
      · obtain ⟨_,hen,hrbo,_⟩ := (h.mem_rbo rule phase).mp hmem
        rw [(hpld rule hrule).reordering hen hef] at hrbo
        cases hrbo
    · refine ⟨fun hmem => ?_,fun phase hmem => ?_⟩
      · have hen := ((h.mem_cbo rule).mp hmem).2.1
        rw [hdis] at hen
        cases hen
      · have hen := ((h.mem_rbo rule phase).mp hmem).2.1
        rw [hdis] at hen
        cases hen

def Loaded (policy : List SDSLRulePolicy) : Prop :=
  ∃ content, (CDSLPolicyLoader.ppolicyLoadBuffer content).1 = some policy

/-- For every library and every loaded policy, or none: the compiled snapshot classifies every rule
exactly when each rule has an entry of its own, or the entry for `*` needs no resolution. -/
theorem psnapshotCompile_classified_iff (hgiven : ∀ policy ∈ given, Loaded policy)
    (h : (psnapshotCompile szIdentity rules given).1 = some s) :
    Classified rules s ↔ ∀ rule ∈ rules,
      findConfigured (given.getD []) (szIdentity rule) = none → DefaultResolved (given.getD []) := by
  have hcom := psnapshotCompile_spec h
  have hck : ∀ entry ∈ given.getD [], CDSLPolicyLoader.Checked entry := by
    cases given with
    | none => exact nofun
    | some policy =>
      obtain ⟨content,hload⟩ := hgiven policy rfl
      exact (CDSLPolicyLoader.ppolicyLoadBuffer_checked hload).1
  rw [hcom.classified_iff]
  refine forall₂_congr fun rule hrule => ?_
  rw [hcom.policy_eq hrule]
  exact placed_resolve_iff hck

end

/-! ## A default that is not resolved -/

namespace Wildcard

abbrev Rule := List Char

def library : List Rule := ["00000000000000a1".toList, "00000000000000b2".toList]

def autoDocument : List Char := "- rule: *\n  placement: auto\n  effect: changes_join_graph\n".toList

def autoPolicy : List SDSLRulePolicy :=
  [{ ruleIdentity := ['*'], placement := .auto, effect := .changesJoinGraph }]

/-- With `placement: auto` in the entry for `*`, both rules are enabled, keep the placement `auto` and
get into no list. -/
theorem auto_unlisted :
    (CDSLPolicyLoader.ppolicyLoadBuffer autoDocument).1 = some autoPolicy ∧
      ∃ s, (psnapshotCompile id library (some autoPolicy)).1 = some s ∧ ∀ rule ∈ library,
        (s.policy rule).enabled = true ∧ (s.policy rule).placement = .auto ∧ s.Unlisted rule := by
  refine ⟨by decide +kernel,_,rfl,?_⟩
  intro rule hrule
  refine ⟨?_,?_,?_,fun phase => ?_⟩
  · revert rule
    decide +kernel
  · revert rule
    decide +kernel
  · revert rule
    decide +kernel
  · cases phase <;> revert rule <;> decide +kernel

def mixedDocument : List Char :=
  "- rule: *\n  placement: rbo\n  phase: cleanup\n- rule: 00000000000000B2\n  placement: auto\n".toList

def mixedPolicy : List SDSLRulePolicy :=
  [{ ruleIdentity := ['*'], placement := .rbo, phase := .cleanup },
    { ruleIdentity := "00000000000000b2".toList, placement := .auto }]

theorem mixed_classified :
    (CDSLPolicyLoader.ppolicyLoadBuffer mixedDocument).1 = some mixedPolicy ∧
      ∃ s, (psnapshotCompile id library (some mixedPolicy)).1 = some s ∧ Classified library s := by
  have hload : (CDSLPolicyLoader.ppolicyLoadBuffer mixedDocument).1 = some mixedPolicy := by
    decide +kernel
  have hsome : (psnapshotCompile id library (some mixedPolicy)).1.isSome := by decide +kernel
  obtain ⟨s,hs⟩ := isSome_iff_exists.mp hsome
  refine ⟨hload,s,hs,(psnapshotCompile_classified_iff ?_ hs).mpr ?_⟩
  · intro policy hpol
    cases hpol
    exact ⟨mixedDocument,hload⟩
  · intro rule _ _ entry hen
    cases hen
    exact ⟨nofun,fun _ => nofun⟩

end Wildcard

end CDSLPolicySnapshot

end PgOrca.DSL
