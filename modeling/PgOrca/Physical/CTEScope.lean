import Mathlib

/-!
# CTE requirements and derived CTE maps

Maps and requirements are functions of the CTE id. An entry's plan properties are left out.
-/

namespace PgOrca.Physical

open List

variable {κ : Type}

inductive ECteType
  | producer
  | consumer
deriving DecidableEq

open ECteType

abbrev CCTEMap (κ : Type) := κ → Option ECteType

structure CCTEReqEntry where
  ect : ECteType
  fRequired : Bool

/-- `pdrgpulRequired id`: the id stands in the array of required ids. -/
structure CCTEReq (κ : Type) where
  phmcter : κ → Option CCTEReqEntry
  pdrgpulRequired : κ → Bool

namespace CCTEMap

def addUnresolved (cmFirst cmSecond pcmResult : CCTEMap κ) : CCTEMap κ := fun id =>
  match pcmResult id, cmFirst id with
  | some ect, _ => some ect
  | none, none => none
  | none, some ectFirst =>
    if cmSecond id = none ∨ cmSecond id = some ectFirst then some ectFirst else none

def pcmCombine (cmFirst cmSecond : CCTEMap κ) : CCTEMap κ :=
  addUnresolved cmSecond cmFirst (addUnresolved cmFirst cmSecond fun _ => none)

/-- `CPhysical::PcmCombine`, also the loop of `CPhysical::PcmDerive`. -/
def pcmCombineAll (maps : List (CCTEMap κ)) : CCTEMap κ :=
  maps.foldl pcmCombine fun _ => none

def single [DecidableEq κ] (id : κ) (ect : ECteType) : CCTEMap κ := fun i =>
  if i = id then some ect else none

end CCTEMap

namespace CCTEReq

variable (pcter : CCTEReq κ)

def ect (id : κ) : Option ECteType := (pcter.phmcter id).map (·.ect)

def ofEntries (entries : κ → Option CCTEReqEntry) : CCTEReq κ :=
  ⟨entries, fun id => (entries id).any (·.fRequired)⟩

variable (pcm : CCTEMap κ)

def pcterUnresolved : CCTEReq κ :=
  ofEntries fun id => (pcter.phmcter id).map fun pcre =>
    ⟨pcre.ect, pcre.fRequired && pcm id = none⟩

def pcterAllOptional : CCTEReq κ :=
  ofEntries fun id => (pcter.phmcter id).map fun pcre => ⟨pcre.ect, false⟩

def pdrgpulAdditionalProducers (id : κ) : Bool :=
  pcm id = some producer ∧ pcter.ect id ≠ some producer

/-- `InsertConsumer` for several ids. The map keeps an entry it already has; the array of
required ids grows all the same. -/
def insertConsumers (ids : κ → Bool) : CCTEReq κ :=
  ⟨fun id => (pcter.phmcter id).or (if ids id then some ⟨consumer, true⟩ else none),
    fun id => pcter.pdrgpulRequired id || ids id⟩

def pcterUnresolvedSequence : CCTEReq κ :=
  (ofEntries fun id => (pcter.phmcter id).map fun pcre =>
    if pcre.fRequired ∧ pcm id ≠ none then ⟨pcre.ect, false⟩
    else if ¬ pcre.fRequired ∧ pcre.ect = producer ∧ pcm id ≠ none then ⟨consumer, true⟩
    else pcre).insertConsumers (pcter.pdrgpulAdditionalProducers pcm)

/-- `CCTEInfo::PcterProducers`, the requirement of the root. -/
def pcterProducers : CCTEReq κ := ofEntries fun _ => some ⟨producer, false⟩

end CCTEReq

def CCTEMap.FSatisfies (pcm : CCTEMap κ) (pcter : CCTEReq κ) : Prop :=
  (∀ id, pcter.pdrgpulRequired id → pcm id ≠ none ∧ pcm id = pcter.ect id) ∧
    ∀ id, pcm id = some consumer → pcter.ect id = some consumer

inductive EChildExecOrder
  | leftToRight
  | rightToLeft

/-- The operators by the way they compute the requirement of a child; one without relational
children is a `pushThru` with none. -/
inductive CPhysicalOp
  | pushThru
  | nAry (eceo : EChildExecOrder)
  | sequence

inductive CPhysicalPlan (κ : Type)
  | cteConsumer (id : κ)
  | cteProducer (id : κ) (child : CPhysicalPlan κ)
  | node (op : CPhysicalOp) (children : List (CPhysicalPlan κ))

open CCTEMap CCTEReq

/-- `PcteRequired` for the child that has the derived maps `before` to its left and `after`
to its right. -/
def CPhysicalOp.pcteRequired (op : CPhysicalOp) (pcter : CCTEReq κ)
    (before after : List (CCTEMap κ)) : CCTEReq κ :=
  match op with
  | pushThru => pcter
  | nAry .leftToRight =>
    if after.isEmpty then pcter.pcterUnresolved (pcmCombineAll before) else pcter.pcterAllOptional
  | nAry .rightToLeft =>
    if before.isEmpty then pcter.pcterUnresolved (pcmCombineAll after.reverse)
    else pcter.pcterAllOptional
  | sequence =>
    if after.isEmpty then pcter.pcterUnresolvedSequence (pcmCombineAll before)
    else pcter.pcterAllOptional

namespace CPhysicalPlan

def pcmDerive [DecidableEq κ] : CPhysicalPlan κ → CCTEMap κ
  | cteConsumer id => single id consumer
  | cteProducer id child => pcmCombine (single id producer) child.pcmDerive
  | node _ children => pcmCombineAll (children.map pcmDerive)

/-- Every node's derived map satisfies the requirement computed for it. -/
inductive FAccepted [DecidableEq κ] : CPhysicalPlan κ → CCTEReq κ → Prop
  | ofConsumer {id pcter} : (cteConsumer id).pcmDerive.FSatisfies pcter →
      FAccepted (cteConsumer id) pcter
  | ofProducer {id child pcter} : (cteProducer id child).pcmDerive.FSatisfies pcter →
      FAccepted child pcter → FAccepted (cteProducer id child) pcter
  | ofNode {op children pcter} : (node op children).pcmDerive.FSatisfies pcter →
      (∀ before c after, children = before ++ c :: after → FAccepted c
        (op.pcteRequired pcter (before.map pcmDerive) (after.map pcmDerive))) →
      FAccepted (node op children) pcter

/-- Each consumer is one of `scope` or lies in the last child of a Sequence one of whose
earlier children derives the producer. -/
inductive ConsumersFollow [DecidableEq κ] : Set κ → CPhysicalPlan κ → Prop
  | cteConsumer {scope id} : id ∈ scope → ConsumersFollow scope (cteConsumer id)
  | cteProducer {scope id child} : ConsumersFollow scope child →
      ConsumersFollow scope (cteProducer id child)
  | node {scope op children} : (∀ before c after, children = before ++ c :: after →
      ConsumersFollow (scope ∪ {id | op = .sequence ∧ after = [] ∧
        ∃ e ∈ before, e.pcmDerive id = some producer}) c) → ConsumersFollow scope (node op children)

inductive Subplan (s : CPhysicalPlan κ) : CPhysicalPlan κ → Prop
  | refl : Subplan s s
  | cteProducer {id child} : Subplan s child → Subplan s (cteProducer id child)
  | node {op children c} : c ∈ children → Subplan s c → Subplan s (node op children)

/-- The plan has a producer of `id` outside the earlier children of its own Sequences. -/
inductive Exposes (id : κ) : CPhysicalPlan κ → Prop
  | self {child} : Exposes id (cteProducer id child)
  | cteProducer {i child} : Exposes id child → Exposes id (cteProducer i child)
  | node {op before c after} : (op = .sequence → after = []) → Exposes id c →
      Exposes id (node op (before ++ c :: after))

/-- A producer in an earlier child of a Sequence, and of no Sequence nearer to it, has a
consumer in the last child. -/
def ProducersUsed (plan : CPhysicalPlan κ) : Prop :=
  ∀ earlier last, (node .sequence (earlier ++ [last])).Subplan plan → ∀ c ∈ earlier, ∀ id,
    Exposes id c → (cteConsumer id).Subplan last

def producers : CPhysicalPlan κ → List κ
  | cteConsumer _ => []
  | cteProducer id child => id :: child.producers
  | node _ children => children.flatMap producers

/-- No CTE that an earlier child of a Sequence derives is produced again in its last child. -/
def ProducedOutside [DecidableEq κ] (plan : CPhysicalPlan κ) : Prop :=
  ∀ earlier last, (node .sequence (earlier ++ [last])).Subplan plan → ∀ c ∈ earlier, ∀ id,
    c.pcmDerive id = some producer → id ∉ last.producers

end CPhysicalPlan

/-! ## Derived maps -/

namespace CCTEMap

variable {maps : List (CCTEMap κ)} {acc cmFirst cmSecond : CCTEMap κ} {id : κ} {ect : ECteType}

@[grind =]
theorem pcmCombine_apply : pcmCombine cmFirst cmSecond id =
    if cmFirst id = none then cmSecond id
    else if cmSecond id = none ∨ cmSecond id = cmFirst id then cmFirst id else none := by
  unfold pcmCombine addUnresolved
  cases cmFirst id <;> cases cmSecond id <;> grind

theorem exists_of_foldl (h : maps.foldl pcmCombine acc id = some ect) :
    acc id = some ect ∨ ∃ m ∈ maps, m id = some ect := by
  induction maps generalizing acc with
  | nil => exact .inl h
  | cons m maps ih =>
    have hrest := ih h
    simp only [pcmCombine_apply,mem_cons,exists_eq_or_imp] at hrest ⊢
    grind

theorem foldl_eq_some (hacc : acc id = none ∨ acc id = some ect)
    (hmaps : ∀ m ∈ maps, m id = none ∨ m id = some ect)
    (hsome : acc id = some ect ∨ ∃ m ∈ maps, m id = some ect) :
    maps.foldl pcmCombine acc id = some ect := by
  induction maps generalizing acc with
  | nil => simpa using hsome
  | cons m maps ih =>
    simp only [mem_cons,forall_eq_or_imp,exists_eq_or_imp] at hmaps hsome
    apply ih
    · grind
    · exact hmaps.2
    · grind

end CCTEMap

section

variable [DecidableEq κ] {plan : CPhysicalPlan κ} {id : κ} {children : List (CPhysicalPlan κ)}

theorem CPhysicalPlan.exists_of_pcmCombineAll {ect : ECteType}
    (h : pcmCombineAll (children.map pcmDerive) id = some ect) :
    ∃ c ∈ children, c.pcmDerive id = some ect := by
  simpa using exists_of_foldl h

theorem CPhysicalPlan.pcmCombineAll_producer (hchs : ∀ c ∈ children, c.pcmDerive id ≠ some consumer)
    (hsome : ∃ c ∈ children, c.pcmDerive id = some producer) :
    pcmCombineAll (children.map pcmDerive) id = some producer := by
  refine foldl_eq_some (.inl rfl) ?_ (.inr (by simpa using hsome))
  simp only [mem_map,forall_exists_index,and_imp,forall_apply_eq_imp_iff₂]
  intro c hc
  have hne := hchs c hc
  rcases hde : c.pcmDerive id with _ | (_ | _) <;> simp_all

theorem CPhysicalPlan.subplan_of_pcmDerive (h : plan.pcmDerive id = some consumer) :
    (cteConsumer id).Subplan plan := by
  induction plan using pcmDerive.induct with
  | case1 i =>
    obtain rfl : id = i := by simpa [pcmDerive,single] using h
    exact .refl
  | case2 i child ih =>
    refine .cteProducer (ih ?_)
    simp only [pcmDerive,pcmCombine_apply,single] at h
    grind
  | case3 op children ih =>
    rw [pcmDerive] at h
    obtain ⟨c,hc,hid⟩ := exists_of_pcmCombineAll h
    exact .node hc (ih c hc hid)

omit [DecidableEq κ] in
theorem CPhysicalPlan.Exposes.mem_producers (h : Exposes id plan) : id ∈ plan.producers := by
  induction h <;> simp_all [producers]

end

/-! ## Requirements of the children -/

namespace CCTEReq

variable {pcter : CCTEReq κ} {pcm : CCTEMap κ} {id : κ}

/-- The requirement leaves it to the plan whether it produces the CTE. -/
def Open (pcter : CCTEReq κ) (id : κ) : Prop :=
  pcter.phmcter id = none ∨ pcter.phmcter id = some ⟨producer, false⟩

@[simp]
theorem ect_pcterUnresolved : (pcter.pcterUnresolved pcm).ect id = pcter.ect id := by
  simp [ect,pcterUnresolved,ofEntries,Function.comp_def]

@[simp]
theorem ect_pcterAllOptional : pcter.pcterAllOptional.ect id = pcter.ect id := by
  simp [ect,pcterAllOptional,ofEntries,Function.comp_def]

theorem ect_pcterUnresolvedSequence
    (h : (pcter.pcterUnresolvedSequence pcm).ect id = some consumer) :
    pcter.ect id = some consumer ∨ pcm id ≠ none := by
  by_contra hne
  push Not at hne
  rcases hpcre : pcter.phmcter id with _ | ⟨_ | _,_ | _⟩ <;>
    simp [pcterUnresolvedSequence,insertConsumers,ofEntries,pdrgpulAdditionalProducers,ect,
      hpcre,hne.2] at h hne

section

variable (h : pcter.Open id)

include h

theorem Open.ect_ne : pcter.ect id ≠ some consumer := by
  rcases h with h | h <;> simp [ect,h]

theorem Open.requires (hpcm : pcm id = some producer) :
    (pcter.pcterUnresolvedSequence pcm).pdrgpulRequired id ∧
      (pcter.pcterUnresolvedSequence pcm).ect id = some consumer := by
  rcases h with h | h <;> simp [pcterUnresolvedSequence,insertConsumers,ofEntries,
    pdrgpulAdditionalProducers,ect,h,hpcm]

theorem Open.unresolved : (pcter.pcterUnresolved pcm).Open id := by
  rcases h with h | h <;> simp [Open,pcterUnresolved,ofEntries,h]

theorem Open.allOptional : pcter.pcterAllOptional.Open id := by
  rcases h with h | h <;> simp [Open,pcterAllOptional,ofEntries,h]

theorem Open.unresolvedSequence (hpcm : pcm id = none) :
    (pcter.pcterUnresolvedSequence pcm).Open id := by
  rcases h with h | h <;> simp [Open,pcterUnresolvedSequence,insertConsumers,ofEntries,
    pdrgpulAdditionalProducers,h,hpcm]

end

end CCTEReq

/-- What a child may be asked for. -/
theorem CPhysicalOp.pcteRequired_cases {op : CPhysicalOp} {pcter : CCTEReq κ}
    {before after : List (CCTEMap κ)} {motive : CCTEReq κ → Prop} (hpush : motive pcter)
    (hunr : ∀ pcm, motive (pcter.pcterUnresolved pcm))
    (hopt : motive pcter.pcterAllOptional) (hseq : op = sequence → after = [] →
      motive (pcter.pcterUnresolvedSequence (pcmCombineAll before))) :
    motive (op.pcteRequired pcter before after) := by
  unfold pcteRequired
  split <;> try split_ifs with hemp
  · exact hpush
  · exact hunr _
  · exact hopt
  · exact hunr _
  · exact hopt
  · exact hseq rfl (isEmpty_iff.mp hemp)
  · exact hopt

namespace CPhysicalPlan

variable [DecidableEq κ] {plan : CPhysicalPlan κ} {pcter : CCTEReq κ} {op : CPhysicalOp} {id : κ}
  {before after : List (CPhysicalPlan κ)} {c e : CPhysicalPlan κ}

theorem FAccepted.satisfies (h : FAccepted plan pcter) : plan.pcmDerive.FSatisfies pcter := by
  cases h <;> assumption

theorem FAccepted.child (h : FAccepted (node op (before ++ c :: after)) pcter) :
    FAccepted c (op.pcteRequired pcter (before.map pcmDerive) (after.map pcmDerive)) := by
  cases h with
  | ofNode _ hchs => exact hchs before c after rfl

/-- An earlier child of a Sequence consumes only what the Sequence may consume. -/
theorem FAccepted.earlier (h : FAccepted (node .sequence (before ++ [c])) pcter) (he : e ∈ before)
    (hid : e.pcmDerive id = some consumer) : pcter.ect id = some consumer := by
  obtain ⟨s,t,rfl⟩ := append_of_mem he
  rw [append_assoc,cons_append] at h
  simpa [CPhysicalOp.pcteRequired] using h.child.satisfies.2 id hid

/-- A child consumes what the plan may consume, unless it is the last one of a Sequence that has
produced it before. -/
theorem FAccepted.ect_child (h : FAccepted (node op (before ++ c :: after)) pcter)
    (hid : (op.pcteRequired pcter (before.map pcmDerive) (after.map pcmDerive)).ect id =
      some consumer) :
    pcter.ect id = some consumer ∨
      op = .sequence ∧ after = [] ∧ ∃ e ∈ before, e.pcmDerive id = some producer := by
  revert hid
  refine CPhysicalOp.pcteRequired_cases (motive := fun pcter' => pcter'.ect id = some consumer → _)
    .inl (fun _ hid => ?_) (fun hid => ?_) fun hop haft hid => ?_
  · exact .inl (by simpa using hid)
  · exact .inl (by simpa using hid)
  · obtain rfl : after = [] := by simpa using haft
    subst hop
    rcases ect_pcterUnresolvedSequence hid with hid | hid
    · exact .inl hid
    · obtain ⟨ect,hect⟩ := Option.ne_none_iff_exists'.mp hid
      obtain ⟨e,he,hde⟩ := exists_of_pcmCombineAll hect
      cases ect with
      | producer => exact .inr ⟨rfl,rfl,e,he,hde⟩
      | consumer => exact .inl (h.earlier he hde)

theorem FAccepted.consumersFollow (h : FAccepted plan pcter) {scope : Set κ}
    (hsc : ∀ id, pcter.ect id = some consumer → id ∈ scope) : plan.ConsumersFollow scope := by
  induction h generalizing scope with
  | ofConsumer hsat => exact .cteConsumer (hsc _ (hsat.2 _ (by simp [pcmDerive,single])))
  | ofProducer _ _ ih => exact .cteProducer (ih hsc)
  | ofNode hsat hchs ih =>
    refine .node fun before c after hsp => ih before c after hsp fun id hid => ?_
    subst hsp
    rcases (FAccepted.ofNode hsat hchs).ect_child hid with h | h
    · exact .inl (hsc id h)
    · exact .inr h

/-- An accepted plan that produces no CTE in whose scope it stands. -/
structure Admissible (plan : CPhysicalPlan κ) (pcter : CCTEReq κ) : Prop where
  accepted : FAccepted plan pcter
  outside : plan.ProducedOutside
  fresh : ∀ id ∈ plan.producers, pcter.Open id

namespace Admissible

theorem child (h : Admissible (node op (before ++ c :: after)) pcter) :
    Admissible c (op.pcteRequired pcter (before.map pcmDerive) (after.map pcmDerive)) := by
  refine ⟨h.accepted.child,fun earlier last hsub => h.outside earlier last (.node (by simp) hsub),
    fun id hid => ?_⟩
  have hopen := h.fresh id (by simp [producers,hid])
  apply CPhysicalOp.pcteRequired_cases (motive := fun pcter' => pcter'.Open id)
  · exact hopen
  · exact fun _ => hopen.unresolved
  · exact hopen.allOptional
  · intro hop haft
    obtain rfl : after = [] := by simpa using haft
    subst hop
    refine hopen.unresolvedSequence (Option.eq_none_iff_forall_ne_some.mpr fun ect hect => ?_)
    obtain ⟨e,he,hde⟩ := exists_of_pcmCombineAll hect
    cases ect with
    | producer =>
      -- the CTE would be produced again in its own scope
      exact h.outside before c .refl e he id hde hid
    | consumer => exact hopen.ect_ne (h.accepted.earlier he hde)

theorem producerChild {i : κ} (h : Admissible (cteProducer i c) pcter) : Admissible c pcter := by
  obtain ⟨hacc,hout,hfr⟩ := h
  cases hacc with
  | ofProducer _ hch =>
    exact ⟨hch,fun earlier last hsub => hout earlier last (.cteProducer hsub),
      fun id hid => hfr id (by simp [producers,hid])⟩

theorem subplan {s : CPhysicalPlan κ} (hs : s.Subplan plan) (h : Admissible plan pcter) :
    ∃ pcter', Admissible s pcter' := by
  induction hs generalizing pcter with
  | refl => exact ⟨pcter,h⟩
  | cteProducer _ ih => exact ih h.producerChild
  | node hc _ ih =>
    obtain ⟨before,after,rfl⟩ := append_of_mem hc
    exact ih h.child

theorem not_consumer (h : Admissible (node op (before ++ c :: after)) pcter)
    (hid : id ∈ (node op (before ++ c :: after)).producers) (haft : op = .sequence → after = [])
    (hc : c.pcmDerive id = some producer) (he : e ∈ before ++ c :: after) :
    e.pcmDerive id ≠ some consumer := by
  intro hco
  obtain ⟨s,t,hsp⟩ := append_of_mem he
  have hacc : FAccepted (node op (s ++ e :: t)) pcter := hsp ▸ h.accepted
  rcases hacc.ect_child (hacc.child.satisfies.2 id hco) with hect | ⟨hop,rfl,-⟩
  · exact (h.fresh id hid).ect_ne hect
  · obtain rfl := haft hop
    obtain rfl : c = e := by simpa using congrArg List.getLast? hsp
    simp [hc] at hco

/-- An exposed producer is derived: no part of the plan may consume it. -/
theorem pcmDerive_of_exposes (hid : Exposes id plan) (h : Admissible plan pcter) :
    plan.pcmDerive id = some producer := by
  have hmem := hid.mem_producers
  induction hid generalizing pcter with
  | @self child =>
    have hch := h.producerChild.accepted.satisfies.2 id
    have hfr := (h.fresh id hmem).ect_ne
    simp only [pcmDerive,pcmCombine_apply,single]
    rcases hde : child.pcmDerive id with _ | (_ | _) <;> simp_all
  | cteProducer hch ih =>
    have hpr := ih h.producerChild hch.mem_producers
    simp only [pcmDerive,pcmCombine_apply,single]
    grind
  | node haft hch ih =>
    have hpr := ih h.child hch.mem_producers
    rw [pcmDerive]
    exact pcmCombineAll_producer (fun e he => h.not_consumer hmem haft hpr he) ⟨_,by simp,hpr⟩

theorem consumer_of_exposes {last : CPhysicalPlan κ}
    (h : Admissible (node .sequence (before ++ [last])) pcter) (hc : c ∈ before)
    (hid : Exposes id c) : (cteConsumer id).Subplan last := by
  have hopen := h.fresh id (by simpa [producers] using .inl ⟨c,hc,hid.mem_producers⟩)
  have hpr : pcmCombineAll (before.map pcmDerive) id = some producer := by
    apply pcmCombineAll_producer
    · exact fun e he hco => hopen.ect_ne (h.accepted.earlier he hco)
    · obtain ⟨s,t,rfl⟩ := append_of_mem hc
      have hsp : Admissible (node .sequence (s ++ c :: (t ++ [last]))) pcter := by simpa using h
      exact ⟨c,hc,pcmDerive_of_exposes hid hsp.child⟩
  obtain ⟨hre,hect⟩ := hopen.requires hpr
  have hlast := h.accepted.child.satisfies.1 id (by simpa [CPhysicalOp.pcteRequired] using hre)
  exact subplan_of_pcmDerive (hlast.2.trans (by simpa [CPhysicalOp.pcteRequired] using hect))

end Admissible

theorem producers_precede_consumers (haccepted : plan.FAccepted pcterProducers)
    (houtside : plan.ProducedOutside) :
    plan.ConsumersFollow ∅ ∧ plan.ProducersUsed ∧ ∀ id, plan.pcmDerive id ≠ some consumer := by
  have hopen (id : κ) : (pcterProducers : CCTEReq κ).Open id := .inr rfl
  have hadm : plan.Admissible pcterProducers := ⟨haccepted,houtside,fun id _ => hopen id⟩
  refine ⟨haccepted.consumersFollow fun id h => absurd h (hopen id).ect_ne,?_,?_⟩
  · intro earlier last hsub c hc id hid
    obtain ⟨_,hseq⟩ := hadm.subplan hsub
    exact hseq.consumer_of_exposes hc hid
  · exact fun id h => (hopen id).ect_ne (haccepted.satisfies.2 id h)

theorem FAccepted.pair {a b : CPhysicalPlan κ} (hsat : (node op [a, b]).pcmDerive.FSatisfies pcter)
    (ha : a.FAccepted (op.pcteRequired pcter [] [b.pcmDerive]))
    (hb : b.FAccepted (op.pcteRequired pcter [a.pcmDerive] [])) :
    (node op [a, b]).FAccepted pcter := by
  refine .ofNode hsat fun before c after hsp => ?_
  rcases before with _ | ⟨x,_ | ⟨y,before⟩⟩
  · obtain ⟨rfl,rfl⟩ : a = c ∧ [b] = after := by simpa using hsp
    exact ha
  · obtain ⟨rfl,rfl,rfl⟩ : a = x ∧ b = c ∧ [] = after := by simpa using hsp
    exact hb
  · simp at hsp

namespace OneCTE

def scan : CPhysicalPlan Unit := node .pushThru []

def produce : CPhysicalPlan Unit := cteProducer () scan

def consume : CPhysicalPlan Unit := cteConsumer ()

/-- In the scope of one producer a second one and a consumer of it stand in an earlier child. -/
def producedTwice : CPhysicalPlan Unit :=
  node .sequence [produce, node (.nAry .leftToRight)
    [node .sequence [node (.nAry .leftToRight) [produce, consume], scan], consume]]

theorem scan_accepted {pcter : CCTEReq Unit} (h : ∀ id, pcter.pdrgpulRequired id = false) :
    scan.FAccepted pcter := by
  refine .ofNode ?_ (by simp)
  simpa [scan,pcmDerive,FSatisfies,pcmCombineAll] using h

theorem once_accepted : (node .sequence [produce, consume]).FAccepted pcterProducers := by
  refine .pair ?_ (.ofProducer ?_ (scan_accepted ?_)) (.ofConsumer ?_) <;>
    simp +decide [produce,consume,scan,pcmDerive,FSatisfies,pcmCombineAll,pcmCombine,
      addUnresolved,single,CPhysicalOp.pcteRequired,pcterProducers,ofEntries,pcterAllOptional,
      pcterUnresolvedSequence,insertConsumers,pdrgpulAdditionalProducers,ect]

theorem once_outside : (node .sequence [produce, consume]).ProducedOutside := by
  intro earlier last hsub c hc id hde
  generalize hs : node .sequence (earlier ++ [last]) = s at hsub
  suffices hlast : last = consume by simp [hlast,consume,producers]
  rcases hsub with _ | _ | ⟨hmem,hsub⟩
  · have hend := congrArg List.getLast? (CPhysicalPlan.node.inj hs).2
    simpa using hend
  · rcases mem_pair.mp hmem with rfl | rfl
    · rcases hsub with _ | hsub | _
      · cases hs
      · rcases hsub with _ | _ | ⟨hmem,_⟩
        · cases hs
        · cases hmem
    · rcases hsub
      cases hs

theorem once_precedes : (node .sequence [produce, consume]).ConsumersFollow ∅ :=
  (producers_precede_consumers once_accepted once_outside).1

theorem producedTwice_accepted : producedTwice.FAccepted pcterProducers := by
  refine .pair ?_ (.ofProducer ?_ (scan_accepted ?_)) (.pair ?_ (.pair ?_
    (.pair ?_ (.ofProducer ?_ (scan_accepted ?_)) (.ofConsumer ?_)) (scan_accepted ?_))
    (.ofConsumer ?_)) <;>
    simp +decide [produce,consume,scan,pcmDerive,FSatisfies,pcmCombineAll,pcmCombine,
      addUnresolved,single,CPhysicalOp.pcteRequired,pcterProducers,ofEntries,pcterAllOptional,
      pcterUnresolved,pcterUnresolvedSequence,insertConsumers,pdrgpulAdditionalProducers,ect]

theorem producedTwice_unused :
    producedTwice.FAccepted pcterProducers ∧ ¬ producedTwice.ProducersUsed := by
  refine ⟨producedTwice_accepted,fun hused => ?_⟩
  have hexp : Exposes () (node (.nAry .leftToRight) ([] ++ produce :: [consume])) :=
    .node (by simp) .self
  have hscan := hused [node (.nAry .leftToRight) [produce,consume]] scan
    (.node (mem_cons_of_mem _ mem_cons_self) (.node mem_cons_self .refl)) _
    mem_cons_self () hexp
  rcases hscan with _ | _ | ⟨hc,_⟩
  simp at hc

end OneCTE

end CPhysicalPlan

end PgOrca.Physical
