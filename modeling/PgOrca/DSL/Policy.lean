import Mathlib

/-!
# The scheduling policy of the rules

`CDSLPolicyLoader` reads a document of entries line by line and accepts all of it or nothing.
-/

namespace PgOrca.DSL

open List

inductive EDslRulePlacement
  | rbo | cbo | auto | rejected
  deriving DecidableEq

inductive EDslRulePhase
  | normalize | preJoin | cleanup | explore
  deriving DecidableEq

inductive EDslRuleEffect
  | changesJoinGraph | preservesJoinGraph | joinReordering
  deriving DecidableEq

inductive EDslRuleOrder
  | topDown | bottomUp
  deriving DecidableEq

structure SDSLRulePolicy where
  ruleIdentity : List Char := []
  enabled : Bool := true
  placement : EDslRulePlacement := .cbo
  phase : EDslRulePhase := .explore
  effect : EDslRuleEffect := .preservesJoinGraph
  priority : ℤ := 0
  order : EDslRuleOrder := .bottomUp
  fixpoint : Bool := false
  budgetPerNode : ℕ := 0
  budgetPerRule : ℕ := 0
  budgetPerQuery : ℕ := 0
  deriving DecidableEq

namespace CDSLPolicyLoader

/-! ## Words and numbers -/

def isBlank (ch : Char) : Bool := ch = ' ' ∨ ch = '\r' ∨ ch = '\n'

variable (value : List Char)

def trim : List Char := (value.dropWhile isBlank).rdropWhile isBlank

/-- Strip one pair of double or single quotes. -/
def unquote : List Char :=
  if 2 ≤ value.length ∧ value.head? = value.getLast? ∧
      (value.head? = some (Char.ofNat 34) ∨ value.head? = some (Char.ofNat 39)) then
    value.tail.dropLast
  else value

def fParseBool : Option Bool :=
  if value = "true".toList then some true
  else if value = "false".toList then some false
  else none

/-- The digits that are left, read to a number that stays below or at `limit`. -/
def readDigits (limit : ℕ) : ℕ → List Char → Option ℕ
  | number, [] => some number
  | number, ch :: rest =>
    if ch.isDigit then
      let next := number * 10 + (ch.toNat - 48)
      if limit < next then none else readDigits limit next rest
    else none

def ulongMax : ℕ := 2 ^ 32 - 1

def fParseUnsigned : Option ℕ :=
  if value = [] then none else readDigits ulongMax 0 value

def intMax : ℕ := 2 ^ 31 - 1

def fParseSigned : Option ℤ :=
  match value with
  | [] => none
  | first :: rest =>
    let digits := if first = '-' ∨ first = '+' then rest else value
    if digits = [] then none
    else
      match readDigits (intMax + 1) 0 digits with
      | none => none
      | some number =>
        let signed : ℤ := if first = '-' then -number else number
        if signed < -((intMax : ℤ) + 1) ∨ (intMax : ℤ) < signed then none else some signed

def isXDigit (ch : Char) : Bool :=
  ch.isDigit ∨ ('a' ≤ ch ∧ ch ≤ 'f') ∨ ('A' ≤ ch ∧ ch ≤ 'F')

/-- Whether the identity is valid, and what has been written of it. -/
def fParseIdentity : Bool × List Char :=
  let value := unquote value
  if value = ['*'] then (true, ['*'])
  else if value.length ≠ 16 then (false, [])
  else (value.all isXDigit, (value.takeWhile isXDigit).map Char.toLower)

/-- The key before the first colon and the value after it. -/
def fParseKeyValue (text : List Char) : Option (List Char × List Char) :=
  if ':' ∈ text then
    let key := trim (text.takeWhile (· ≠ ':'))
    let value := trim ((text.dropWhile (· ≠ ':')).drop 1)
    if key = [] then none else some (key, value)
  else none

/-! ## The fields of an entry -/

def choose {α : Type} (options : List (String × α)) (value : List Char) (message : String) :
    Except String α :=
  match options.find? fun option => value = option.1.toList with
  | some option => .ok option.2
  | none => .error message

def fApplyBudget (entry : SDSLRulePolicy) (key value : List Char) : Except String SDSLRulePolicy :=
  let message := "invalid budget field or non-negative integer"
  match fParseUnsigned value with
  | none => .error message
  | some number =>
    if key = "per_node".toList then .ok { entry with budgetPerNode := number }
    else if key = "per_rule".toList then .ok { entry with budgetPerRule := number }
    else if key = "per_query".toList then .ok { entry with budgetPerQuery := number }
    else .error message

/-- `FApplyField`: the changed entry, or the text of the error. -/
def fApplyField (entry : SDSLRulePolicy) (key rawValue : List Char) (budget : Bool) :
    Except String SDSLRulePolicy :=
  let value := unquote rawValue
  if budget then fApplyBudget entry key value
  else if key = "enabled".toList then
    match fParseBool value with
    | some enabled => .ok { entry with enabled := enabled }
    | none => .error "enabled must be true or false"
  else if key = "placement".toList then
    (choose [("rbo", .rbo), ("cbo", .cbo), ("auto", .auto)] value
      "placement must be rbo, cbo, or auto").map fun placement => { entry with placement := placement }
  else if key = "phase".toList then
    (choose [("normalize", .normalize), ("pre_join", .preJoin), ("cleanup", .cleanup),
      ("explore", .explore)] value "invalid phase").map fun phase => { entry with phase := phase }
  else if key = "effect".toList then
    (choose [("changes_join_graph", .changesJoinGraph), ("preserves_join_graph", .preservesJoinGraph),
      ("join_reordering", .joinReordering)] value "invalid effect").map
      fun effect => { entry with effect := effect }
  else if key = "priority".toList then
    match fParseSigned value with
    | some priority => .ok { entry with priority := priority }
    | none => .error "priority must be a 32-bit integer"
  else if key = "order".toList then
    (choose [("top_down", .topDown), ("bottom_up", .bottomUp)] value
      "order must be top_down or bottom_up").map fun order => { entry with order := order }
  else if key = "fixpoint".toList then
    match fParseBool value with
    | some fixpoint => .ok { entry with fixpoint := fixpoint }
    | none => .error "fixpoint must be true or false"
  else .error ("unknown policy field: " ++ String.ofList key)

/-! ## The document -/

/-- The locals of `PpolicyLoadBuffer`. An error is one line of `pstrErrors`. -/
structure State where
  entries : List SDSLRulePolicy := []
  current : SDSLRulePolicy := {}
  haveEntry : Bool := false
  inBudget : Bool := false
  valid : Bool := true
  fieldIndent : ℕ := 0
  identities : List (List Char) := []
  fields : List (List Char) := []
  errors : List String := []

def reject (s : State) (message : String) : State :=
  { s with valid := false, errors := s.errors ++ [message] }

def rejectLine (s : State) (line : ℕ) (message : String) : State :=
  reject s ("line " ++ toString line ++ ": " ++ message)

def finishEntry (s : State) : State :=
  if !s.haveEntry then s
  else if s.current.ruleIdentity = [] then { s with valid := false }
  else if s.current.ruleIdentity ∈ s.identities then
    reject s ("duplicate policy rule identity: " ++ String.ofList s.current.ruleIdentity)
  else
    let s := { s with identities := s.current.ruleIdentity :: s.identities }
    if s.current.enabled ∧ s.current.placement = .rbo ∧
        ("phase".toList ∉ s.fields ∨ s.current.phase = .explore) then
      reject s "an RBO rule requires normalize, pre_join, or cleanup phase"
    else if s.current.enabled ∧ s.current.placement = .cbo ∧ s.current.phase ≠ .explore then
      reject s "a CBO rule must use the explore phase"
    else { s with entries := s.entries ++ [s.current] }

def startEntry (s : State) (line indent : ℕ) (listStart : Bool) (value : List Char) : State :=
  let s := finishEntry s
  let identity := fParseIdentity value
  let s := { s with
    current := { ruleIdentity := identity.2 }
    haveEntry := true
    inBudget := false
    fieldIndent := indent + if listStart then 2 else 0
    fields := ["rule".toList] }
  if identity.1 then s
  else rejectLine s line "rule must be '*' or a 16-digit hexadecimal canonical identity"

def startBudget (s : State) (line indent : ℕ) (value : List Char) : State :=
  let fits := indent = s.fieldIndent ∧ value = []
  let unique := "budget".toList ∉ s.fields
  let fields := if fits then insert "budget".toList s.fields else s.fields
  let s := { s with fields := fields, inBudget := true }
  if fits ∧ unique then s
  else rejectLine s line "budget must be a unique, correctly indented mapping"

def setField (s : State) (line indent : ℕ) (key value : List Char) : State :=
  let budgetName := key = "per_node".toList ∨ key = "per_rule".toList ∨ key = "per_query".toList
  let budgetField := s.inBudget ∧ budgetName ∧ indent = s.fieldIndent + 2
  if (budgetName ∧ ¬ budgetField) ∨ (¬ budgetName ∧ indent ≠ s.fieldIndent) then
    rejectLine s line "invalid policy indentation"
  else
    let fieldKey := if budgetField then "budget.".toList ++ key else key
    if fieldKey ∈ s.fields then
      rejectLine s line ("duplicate policy field: " ++ String.ofList fieldKey)
    else
      let s := { s with
        fields := fieldKey :: s.fields
        inBudget := s.inBudget && decide budgetField }
      match fApplyField s.current key value budgetField with
      | .ok entry => { s with current := entry }
      | .error message => rejectLine s line message

/-- One round of the loop over the lines, which are numbered from one. -/
def readLine (s : State) (numbered : List Char × ℕ) : State :=
  let line := numbered.2 + 1
  let raw := numbered.1
  if '\t' ∈ raw then rejectLine s line "tabs are not allowed in policy indentation"
  else
    let raw := raw.takeWhile (· ≠ '#')
    if trim raw = [] then s
    else
      let indent := (raw.takeWhile (· = ' ')).length
      let text := raw.dropWhile (· = ' ')
      let listStart := text.take 2 = ['-', ' ']
      let text := if listStart then trim (text.drop 2) else text
      match fParseKeyValue text with
      | none => rejectLine s line "expected key: value"
      | some (key, value) =>
        if key = "rule".toList then startEntry s line indent listStart value
        else if !s.haveEntry ∨ listStart then
          rejectLine s line "each policy entry must start with rule"
        else if key = "budget".toList then startBudget s line indent value
        else setField s line indent key value

def getlines : List Char → List (List Char)
  | [] => []
  | ch :: rest =>
    if ch = '\n' then [] :: getlines rest
    else
      match getlines rest with
      | [] => [[ch]]
      | line :: lines => (ch :: line) :: lines

/-- `PpolicyLoadBuffer`: the entries of a valid document, and the errors. -/
def ppolicyLoadBuffer (content : List Char) : Option (List SDSLRulePolicy) × List String :=
  let s := finishEntry ((getlines content).zipIdx.foldl readLine {})
  (if s.valid then some s.entries else none, s.errors)

/-! ## What a loaded document promises -/

/-- What `finishEntry` has checked of an entry. -/
structure Checked (entry : SDSLRulePolicy) : Prop where
  rbo : entry.enabled = true → entry.placement = .rbo → entry.phase ≠ .explore
  cbo : entry.enabled = true → entry.placement = .cbo → entry.phase = .explore
  placement : entry.placement ≠ .rejected

/-- The entries are checked and name different identities. -/
structure Consistent (s : State) : Prop where
  entries : ∀ entry ∈ s.entries, Checked entry
  current : s.current.placement ≠ .rejected
  identities : ∀ entry ∈ s.entries, entry.ruleIdentity ∈ s.identities
  nodup : (s.entries.map (·.ruleIdentity)).Nodup

variable {s : State}

theorem Consistent.reject (h : Consistent s) (message : String) :
    Consistent (reject s message) := ⟨h.entries,h.current,h.identities,h.nodup⟩

theorem Consistent.rejectLine (h : Consistent s) (line : ℕ) (message : String) :
    Consistent (rejectLine s line message) := h.reject _

theorem Consistent.finishEntry (h : Consistent s) : Consistent (finishEntry s) := by
  simp only [CDSLPolicyLoader.finishEntry]
  split
  · exact h
  split
  · exact ⟨h.entries,h.current,h.identities,h.nodup⟩
  split
  · exact h.reject _
  rename_i hnew
  have hgr : ∀ entry ∈ s.entries, entry.ruleIdentity ∈ s.current.ruleIdentity :: s.identities :=
    fun entry hen => mem_cons_of_mem _ (h.identities entry hen)
  split
  · exact ⟨h.entries,h.current,hgr,h.nodup⟩
  split
  · exact ⟨h.entries,h.current,hgr,h.nodup⟩
  rename_i hrbo hcbo
  have hck : Checked s.current := by
    refine ⟨fun hena hpl hph => ?_,fun hena hpl => ?_,h.current⟩
    · exact hrbo ⟨hena,hpl,.inr hph⟩
    · by_contra hph
      exact hcbo ⟨hena,hpl,hph⟩
  refine ⟨?_,h.current,?_,?_⟩
  · intro entry hen
    rcases mem_append.mp hen with hold | hnew
    · exact h.entries entry hold
    · rw [mem_singleton.mp hnew]
      exact hck
  · intro entry hen
    rcases mem_append.mp hen with hold | hnew
    · exact hgr entry hold
    · rw [mem_singleton.mp hnew]
      exact mem_cons_self
  · rw [map_append,nodup_append']
    refine ⟨h.nodup,nodup_singleton _,?_⟩
    intro identity hold hcur
    obtain ⟨entry,hen,rfl⟩ := mem_map.mp hold
    rw [map_singleton,mem_singleton] at hcur
    exact hnew (hcur ▸ h.identities entry hen)

theorem choose_ok {α : Type} {options : List (String × α)} {value : List Char} {message : String}
    {a : α} (h : choose options value message = .ok a) : a ∈ options.map Prod.snd := by
  simp only [choose] at h
  split at h
  case h_1 option hfind =>
    cases h
    exact mem_map_of_mem (List.mem_of_find?_eq_some hfind)
  case h_2 => cases h

theorem fApplyField_placement {entry entry' : SDSLRulePolicy} {key value : List Char}
    {budget : Bool} (hen : entry.placement ≠ .rejected)
    (h : fApplyField entry key value budget = .ok entry') : entry'.placement ≠ .rejected := by
  have hmap {α : Type} {x : Except String α} {f : α → SDSLRulePolicy}
      (hx : x.map f = .ok entry') : ∃ a, x = .ok a ∧ f a = entry' := by
    cases x with
    | error message => cases hx
    | ok a => exact ⟨a,rfl,Except.ok.inj hx⟩
  simp only [fApplyField] at h
  split at h
  · simp only [fApplyBudget] at h
    split at h
    · cases h
    · repeat' split at h
      all_goals cases h
      all_goals exact hen
  split at h
  · split at h
    · cases h
      exact hen
    · cases h
  split at h
  · obtain ⟨placement,hcho,rfl⟩ := hmap h
    have hmem := choose_ok hcho
    simp only [map_cons,map_nil,mem_cons,not_mem_nil,or_false] at hmem
    rcases hmem with rfl | rfl | rfl
    · exact nofun
    · exact nofun
    · exact nofun
  split at h
  · obtain ⟨_,_,rfl⟩ := hmap h
    exact hen
  split at h
  · obtain ⟨_,_,rfl⟩ := hmap h
    exact hen
  split at h
  · split at h
    · cases h
      exact hen
    · cases h
  split at h
  · obtain ⟨_,_,rfl⟩ := hmap h
    exact hen
  split at h
  · split at h
    · cases h
      exact hen
    · cases h
  · cases h

theorem Consistent.startEntry (h : Consistent s) (line indent : ℕ)
    (listStart : Bool) : Consistent (startEntry s line indent listStart value) := by
  have hfi := h.finishEntry
  simp only [CDSLPolicyLoader.startEntry]
  split
  · exact ⟨hfi.entries,nofun,hfi.identities,hfi.nodup⟩
  · exact ⟨hfi.entries,nofun,hfi.identities,hfi.nodup⟩

theorem Consistent.startBudget (h : Consistent s)
    (line indent : ℕ) : Consistent (startBudget s line indent value) := by
  simp only [CDSLPolicyLoader.startBudget]
  split
  · exact ⟨h.entries,h.current,h.identities,h.nodup⟩
  · exact ⟨h.entries,h.current,h.identities,h.nodup⟩

theorem Consistent.setField (h : Consistent s) (line indent : ℕ)
    (key : List Char) : Consistent (setField s line indent key value) := by
  rw [CDSLPolicyLoader.setField]
  generalize (if s.inBudget = true ∧ (key = "per_node".toList ∨ key = "per_rule".toList ∨
    key = "per_query".toList) ∧ indent = s.fieldIndent + 2 then "budget.".toList ++ key else key) =
    fieldKey
  simp only
  split
  · exact h.rejectLine _ _
  split
  · exact h.rejectLine _ _
  split
  case h_1 entry hok =>
    exact ⟨h.entries,fApplyField_placement h.current hok,h.identities,h.nodup⟩
  case h_2 => exact ⟨h.entries,h.current,h.identities,h.nodup⟩

theorem Consistent.readLine (h : Consistent s) (numbered : List Char × ℕ) :
    Consistent (readLine s numbered) := by
  simp only [CDSLPolicyLoader.readLine]
  split
  · exact h.rejectLine _ _
  split
  · exact h
  split
  · exact h.rejectLine _ _
  split
  · exact h.startEntry _ _ _ _
  split
  · exact h.rejectLine _ _
  split
  · exact h.startBudget _ _ _
  · exact h.setField _ _ _ _

theorem ppolicyLoadBuffer_checked {content : List Char} {policy : List SDSLRulePolicy}
    (h : (ppolicyLoadBuffer content).1 = some policy) :
    (∀ entry ∈ policy, Checked entry) ∧ (policy.map (·.ruleIdentity)).Nodup := by
  have hst : Consistent {} := ⟨nofun,nofun,nofun,nodup_nil⟩
  have hread : Consistent ((getlines content).zipIdx.foldl readLine {}) :=
    foldlRecOn _ _ hst fun s hs numbered _ => hs.readLine numbered
  have hdone := hread.finishEntry
  simp only [ppolicyLoadBuffer] at h
  split at h
  · cases h
    exact ⟨hdone.entries,hdone.nodup⟩
  · cases h

end CDSLPolicyLoader

end PgOrca.DSL
