import PgOrca.Library.Digraph

/-!
# The definition graph of a rule

Every symbol has at most one definition, an expression over operand symbols. Constraints are
checked as a whole, bindings one by one.
-/

namespace PgOrca

open List Relation

inductive EDslSymbolKind where
  | table | attrs | pred | schema | func | scalar | expr | order | window | frame | frameBound
  | rank | callHead | valueList | compareHead
  deriving DecidableEq

inductive EDslExpressionKind where
  | and | nullSafeEq | exists | notExists | any | all | compare | scalarSubquery
  | exprListScalarSubquery | exprListExists | exprListNotExists | exprListAny | exprListAll
  | nulls | notTrue | not | ref | or | item | boolValue | case | valueBool | call | args
  | column | scalarDeps
  deriving DecidableEq

inductive EBinding where
  | eLegacy | eMatch | eBuild
  deriving DecidableEq

/-- The kinds of the output and of the operands, by the kind of the expression. -/
def bindingSignatures : List (EDslExpressionKind × List EDslSymbolKind) :=
  [(.and, [.pred, .pred, .pred]), (.or, [.pred, .pred, .pred]),
    (.nullSafeEq, [.pred, .attrs, .attrs]), (.item, [.expr]),
    (.item, [.expr, .scalar, .attrs, .expr]), (.boolValue, [.scalar, .pred]),
    (.case, [.scalar, .pred, .scalar, .scalar]), (.valueBool, [.pred, .scalar]),
    (.call, [.scalar, .callHead, .valueList]), (.scalarSubquery, [.scalar, .attrs, .table]),
    (.args, [.valueList]), (.args, [.valueList, .scalar, .valueList]),
    (.column, [.scalar, .attrs]), (.scalarDeps, [.attrs, .scalar]), (.exists, [.pred, .table]),
    (.any, [.pred, .compareHead, .valueList, .attrs, .table]),
    (.all, [.pred, .compareHead, .valueList, .attrs, .table]),
    (.compare, [.pred, .compareHead, .valueList]), (.notTrue, [.pred, .pred]),
    (.not, [.pred, .pred])]

/-- A constraint by the kind of expression it defines, if it defines one, and its symbols. The
symbols of a rule are numbered. -/
structure CDSLConstraint where
  edslexpr : Option EDslExpressionKind
  pdrgpsym : List ℕ

structure CDefinition where
  edslexpr : EDslExpressionKind
  binding : EBinding
  psymOutput : ℕ
  pdrgpsymOperands : List ℕ
  deriving DecidableEq

/-- The number of symbols of a constraint that defines an expression of the kind. -/
def EDslExpressionKind.ulSymbols : EDslExpressionKind → Option ℕ
  | and | nullSafeEq | nulls => some 3
  | .exists | notExists | notTrue | not => some 2
  | any | all => some 4
  | scalarSubquery => some 6
  | exprListScalarSubquery => some 8
  | exprListExists | exprListNotExists | exprListAny | exprListAll => some 11
  | _ => none

/-- `PsymOutput`, with the definition made of the constraint. -/
def CDSLConstraint.pdef (pcon : CDSLConstraint) : Option CDefinition :=
  match pcon.edslexpr, pcon.pdrgpsym with
  | some edslexpr, psym :: operands => if edslexpr.ulSymbols = some (operands.length + 1) then
      some ⟨edslexpr, .eLegacy, psym, operands⟩ else none
  | _, _ => none

structure CDSLExpressionDefinitions where
  defByOutput : List (Option CDefinition)
  definitions : List CDefinition

variable {index : List (Option CDefinition)}

namespace CDSLExpressionDefinitions

/-- The operands of the definition that is stored for a symbol. -/
def operands (pdef : ℕ → Option CDefinition) (psym : ℕ) : List ℕ :=
  ((pdef psym).map CDefinition.pdrgpsymOperands).getD []

def symbols (definitions : List CDefinition) : Finset ℕ :=
  (definitions.flatMap fun d => d.psymOutput :: d.pdrgpsymOperands).toFinset

/-- The map is walked in the order of its insertions. -/
def fValidate (pdrgpcon : List CDSLConstraint) : Bool :=
  let definitions := pdrgpcon.filterMap CDSLConstraint.pdef
  let pdef psym := definitions.find? fun d => d.psymOutput = psym
  decide (definitions.map CDefinition.psymOutput).Nodup &&
    !(untilAbort (findCycle (operands pdef) ((symbols definitions).card + 1))
      (definitions.map CDefinition.psymOutput) (∅, ∅)).1

def replace (index : List (Option CDefinition)) (d : CDefinition) : List (Option CDefinition) :=
  index.set d.psymOutput (some d)

def new (pdrgpcon : List CDSLConstraint) : CDSLExpressionDefinitions :=
  let definitions := pdrgpcon.filterMap CDSLConstraint.pdef
  let ulMaxId := (definitions.map CDefinition.psymOutput).foldr max 0
  ⟨definitions.foldl replace (replicate (if definitions = [] then 0 else ulMaxId + 1) none),
    definitions⟩

variable (esymkind : ℕ → EDslSymbolKind) (s : CDSLExpressionDefinitions)

def pdef (psymOutput : ℕ) : Option CDefinition := s.defByOutput.getD psymOutput none

def fUses (psymOutput psymOperand : ℕ) : Bool :=
  (search id (operands s.pdef) psymOperand ((symbols s.definitions).card + 2)
    psymOutput ∅).1

variable (kind : EDslExpressionKind)

/-- The kinds that the symbols of a binding must have; a reference takes over the kind of its
output. -/
def expectedKinds (output : EDslSymbolKind) (arity : ℕ) : Option (List EDslSymbolKind) :=
  if kind = .ref then
    if arity = 1 ∧ output ∈ [.pred, .attrs, .table, .schema, .order, .func, .expr, .scalar,
        .callHead, .valueList, .compareHead] then some [output, output] else none
  else (bindingSignatures.find? fun sig => sig.1 = kind ∧ sig.2.length = arity + 1).map Prod.snd

def fAppendBinding (binding : EBinding) (symbols : List ℕ) : Bool × CDSLExpressionDefinitions :=
  match symbols with
  | [] => (false, s)
  | output :: operands =>
    if binding = .eLegacy ∨ binding = .eMatch ∧ kind = .ref ∨
        expectedKinds kind (esymkind output) operands.length ≠ some (symbols.map esymkind) ∨
        (s.pdef output).isSome ∨ operands.any fun operand => s.fUses operand output then (false, s)
    else
      let d : CDefinition := ⟨kind, binding, output, operands⟩
      (true, ⟨replace (s.defByOutput ++
        replicate (output + 1 - s.defByOutput.length) none) d, s.definitions ++ [d]⟩)

/-- The operands of the definitions of a symbol. -/
def Uses (definitions : List CDefinition) (a b : ℕ) : Prop :=
  ∃ d ∈ definitions, d.psymOutput = a ∧ b ∈ d.pdrgpsymOperands

/-- What holds of the graph after every history of calls. -/
structure SingleValued : Prop where
  nodup : (s.definitions.map CDefinition.psymOutput).Nodup
  pdef_iff : ∀ psym d, s.pdef psym = some d ↔ d ∈ s.definitions ∧ d.psymOutput = psym
  acyclic : Acyclic (Uses s.definitions)

variable {esymkind s} {definitions : List CDefinition} {a b : ℕ} {pdrgpcon : List CDSLConstraint}

section

variable {pdef : ℕ → Option CDefinition}
  (h : ∀ psym d, pdef psym = some d ↔ d ∈ definitions ∧ d.psymOutput = psym)
include h

theorem mem_operands : b ∈ operands pdef a ↔ Uses definitions a b := by
  unfold operands Uses
  cases hd : pdef a with
  | none =>
    simp only [Option.map_none,Option.getD_none,not_mem_nil,false_iff]
    rintro ⟨d,hmem,hout,-⟩
    simp [(h a d).mpr ⟨hmem,hout⟩] at hd
  | some d =>
    refine ⟨fun hb => ⟨d,((h a d).mp hd).1,((h a d).mp hd).2,hb⟩,?_⟩
    rintro ⟨d',hmem,hout,hb⟩
    rw [(h a d').mpr ⟨hmem,hout⟩,Option.some_inj] at hd
    exact hd ▸ hb

theorem operands_mem_symbols (hb : b ∈ operands pdef a) : b ∈ symbols definitions := by
  obtain ⟨d,hd,-,hb⟩ := (mem_operands h).mp hb
  exact mem_toFinset.mpr (mem_flatMap.mpr ⟨d,hd,mem_cons_of_mem _ hb⟩)

end

theorem find?_psymOutput (hnd : (definitions.map CDefinition.psymOutput).Nodup) (psym : ℕ)
    (d : CDefinition) : definitions.find? (fun d => d.psymOutput = psym) = some d ↔
      d ∈ definitions ∧ d.psymOutput = psym := by
  constructor
  · intro h
    exact ⟨mem_of_find?_eq_some h,by simpa using find?_some h⟩
  · rintro ⟨hd,rfl⟩
    cases h : definitions.find? (fun d' => d'.psymOutput = d.psymOutput) with
    | none => simpa using find?_eq_none.mp h d hd
    | some d' =>
      have hout : d'.psymOutput = d.psymOutput := by simpa using find?_some h
      rw [inj_on_of_nodup_map hnd (mem_of_find?_eq_some h) hd hout]

theorem fValidate_iff : fValidate pdrgpcon = true ↔
    ((pdrgpcon.filterMap CDSLConstraint.pdef).map CDefinition.psymOutput).Nodup ∧
      Acyclic (Uses (pdrgpcon.filterMap CDSLConstraint.pdef)) := by
  generalize hdefs : pdrgpcon.filterMap CDSLConstraint.pdef = definitions
  simp only [fValidate,hdefs,Bool.and_eq_true,decide_eq_true_eq,Bool.not_eq_true']
  refine and_congr_right fun hnd => ?_
  have hmap := find?_psymOutput hnd
  have hrel : (fun x y => y ∈ operands (fun psym => definitions.find? fun d => d.psymOutput = psym)
      x) = Uses definitions := by
    ext x y
    exact mem_operands hmap
  rw [← hrel]
  refine findCycle_iff (N := symbols definitions) (fun x _ y => operands_mem_symbols hmap)
    (Nat.lt_succ_self _) (fun x hx => ?_) fun x hx => ?_
  · obtain ⟨d,hd,rfl⟩ := mem_map.mp hx
    exact mem_toFinset.mpr (mem_flatMap.mpr ⟨d,hd,mem_cons_self⟩)
  · refine eq_nil_iff_forall_not_mem.mpr fun y hy => ?_
    obtain ⟨d,hd,rfl,-⟩ := (mem_operands hmap).mp hy
    exact hx (mem_map_of_mem hd)

theorem SingleValued.fUses_iff (h : s.SingleValued) :
    s.fUses a b = true ↔ ReflTransGen (Uses s.definitions) a b := by
  have hrel : Follows id (operands s.pdef) = Uses s.definitions := by
    ext x y
    simpa [Follows] using mem_operands h.pdef_iff
  have hN : ∀ x ∈ insert a (symbols s.definitions), ∀ y ∈ operands s.pdef x,
      id y ∈ insert a (symbols s.definitions) :=
    fun x _ y hy => Finset.mem_insert_of_mem (operands_mem_symbols h.pdef_iff hy)
  rw [fUses,search_iff b hN (Finset.mem_insert_self a _)
    (Nat.lt_succ_of_le (Finset.card_insert_le _ _)),hrel,id]

theorem getD_replace {d : CDefinition} (hlt : d.psymOutput < index.length)
    (psym : ℕ) : (replace index d).getD psym none =
      if d.psymOutput = psym then some d else index.getD psym none := by
  rw [replace,getD_eq_getElem?_getD,getElem?_set]
  split_ifs <;> simp_all

theorem getD_foldl_replace (hlt : ∀ d ∈ definitions, d.psymOutput < index.length)
    (hnd : (definitions.map CDefinition.psymOutput).Nodup) (psym : ℕ) :
    (definitions.foldl replace index).getD psym none =
      (definitions.find? fun d => d.psymOutput = psym).or (index.getD psym none) := by
  induction definitions generalizing index with
  | nil => simp
  | cons d definitions ih =>
    rw [map_cons,nodup_cons] at hnd
    have hlt' : ∀ e ∈ definitions, e.psymOutput < (replace index d).length := fun e he => by
      simpa [replace] using hlt e (mem_cons_of_mem d he)
    rw [foldl_cons,ih hlt' hnd.2,getD_replace (hlt d mem_cons_self),find?_cons]
    split_ifs with hd
    · have hnone : definitions.find? (fun e => e.psymOutput = psym) = none := by
        simpa [find?_eq_none,← hd] using hnd.1
      simp [hnone,hd]
    · simp [hd]

theorem singleValued_new (h : fValidate pdrgpcon = true) : (new pdrgpcon).SingleValued := by
  obtain ⟨hnd,hac⟩ := fValidate_iff.mp h
  refine ⟨hnd,fun psym d => ?_,hac⟩
  have hnone (n : ℕ) : (replicate n (none : Option CDefinition)).getD psym none = none := by grind
  rw [pdef,new,getD_foldl_replace (fun d hd => ?_) hnd,hnone,Option.or_none,find?_psymOutput hnd]
  rw [length_replicate,if_neg (ne_nil_of_mem hd)]
  exact Nat.lt_succ_of_le (le_max_of_le (mem_map_of_mem hd) le_rfl)

theorem uses_concat (d : CDefinition) : Uses (definitions ++ [d]) =
    addEdges (Uses definitions) d.psymOutput {x | x ∈ d.pdrgpsymOperands} := by
  ext x y
  simp [Uses,addEdges,or_and_right,exists_or,eq_comm]

theorem SingleValued.fAppendBinding (h : s.SingleValued) (binding : EBinding) (symbols : List ℕ) :
    (s.fAppendBinding esymkind kind binding symbols).2.SingleValued := by
  unfold CDSLExpressionDefinitions.fAppendBinding
  cases symbols with
  | nil => exact h
  | cons output operands =>
    dsimp only
    split_ifs with hgu
    · exact h
    · push Not at hgu
      obtain ⟨-,-,-,hfr,hac⟩ := hgu
      have hnew : ∀ d ∈ s.definitions, d.psymOutput ≠ output := fun d hd hout => by
        simp [(h.pdef_iff output d).mpr ⟨hd,hout⟩] at hfr
      refine ⟨by simpa [nodup_append,h.nodup] using hnew,fun psym d => ?_,?_⟩
      · have hlen : output < (s.defByOutput ++
            replicate (output + 1 - s.defByOutput.length) none).length := by
          simp only [length_append,length_replicate]
          omega
        have hold : (s.defByOutput ++ replicate (output + 1 - s.defByOutput.length) none).getD
            psym none = s.pdef psym := by grind [pdef]
        rw [pdef,getD_replace hlen,hold]
        split_ifs with hout
        · subst hout
          simp only [Option.some_inj,mem_append,mem_singleton]
          grind
        · rw [h.pdef_iff]
          grind
      · rw [uses_concat,acyclic_addEdges]
        refine ⟨h.acyclic,fun c hc hpath => hac ?_⟩
        exact any_eq_true.mpr ⟨c,hc,h.fUses_iff.mpr hpath⟩

def run (esymkind : ℕ → EDslSymbolKind) (pdrgpcon : List CDSLConstraint)
    (calls : List (EDslExpressionKind × EBinding × List ℕ)) : CDSLExpressionDefinitions :=
  calls.foldl (fun s c => (s.fAppendBinding esymkind c.1 c.2.1 c.2.2).2) (new pdrgpcon)

/-- Constraints are admitted when they define no symbol twice and close no cycle; the graph keeps
both, and a refused binding leaves it as it is. -/
theorem definitions_acyclic (esymkind : ℕ → EDslSymbolKind) (pdrgpcon : List CDSLConstraint) :
    (fValidate pdrgpcon = true ↔
      ((pdrgpcon.filterMap CDSLConstraint.pdef).map CDefinition.psymOutput).Nodup ∧
        Acyclic (Uses (pdrgpcon.filterMap CDSLConstraint.pdef))) ∧
    (fValidate pdrgpcon = true → ∀ calls, let s := run esymkind pdrgpcon calls
      s.SingleValued ∧ (∀ a b, s.fUses a b = true ↔ ReflTransGen (Uses s.definitions) a b) ∧
      ∀ kind binding symbols, (s.fAppendBinding esymkind kind binding symbols).1 = false →
        (s.fAppendBinding esymkind kind binding symbols).2 = s) := by
  refine ⟨fValidate_iff,fun h calls => ?_⟩
  have hrun : (run esymkind pdrgpcon calls).SingleValued := by
    induction calls using reverseRecOn with
    | nil => exact singleValued_new h
    | append_singleton calls c ih =>
      rw [run,foldl_concat]
      exact ih.fAppendBinding _ _ _
  refine ⟨hrun,fun a b => hrun.fUses_iff,fun kind binding symbols => ?_⟩
  unfold CDSLExpressionDefinitions.fAppendBinding
  cases symbols with
  | nil => exact fun _ => rfl
  | cons output operands =>
    dsimp only
    split_ifs <;> simp

end CDSLExpressionDefinitions

end PgOrca
