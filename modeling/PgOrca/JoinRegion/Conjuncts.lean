import PgOrca.JoinRegion.Spec

/-!
# Conjuncts of a scalar predicate

Building a predicate drops TRUE and stops at FALSE, so lists of conjuncts are compared after the
same simplification.
-/

namespace PgOrca

open Multiset

/-- A scalar expression as far as splitting into conjuncts looks into it. -/
inductive CScalar (C : Type*) where
  | constBool (value : Bool)
  | boolAnd (children : List (CScalar C))
  | other (conjunct : C)

/-- The used columns of what is not an AND, and `FNullRejecting` of any expression. -/
class ScalarLeaf (C : Type*) where
  usedColumns : C → Finset ℕ
  fNullRejecting : CScalar C → Finset ℕ → Bool

namespace CScalar

variable {C : Type*}

mutual

def decEq [DecidableEq C] : (e f : CScalar C) → Decidable (e = f)
  | constBool v, constBool w =>
    if h : v = w then isTrue (h ▸ rfl) else isFalse fun heq => h (constBool.inj heq)
  | other c, other d =>
    if h : c = d then isTrue (h ▸ rfl) else isFalse fun heq => h (other.inj heq)
  | boolAnd es, boolAnd fs =>
    match decEqList es fs with
    | isTrue h => isTrue (h ▸ rfl)
    | isFalse h => isFalse fun heq => h (boolAnd.inj heq)
  | constBool _, boolAnd _ => isFalse nofun
  | constBool _, other _ => isFalse nofun
  | boolAnd _, constBool _ => isFalse nofun
  | boolAnd _, other _ => isFalse nofun
  | other _, constBool _ => isFalse nofun
  | other _, boolAnd _ => isFalse nofun

def decEqList [DecidableEq C] : (es fs : List (CScalar C)) → Decidable (es = fs)
  | [], [] => isTrue rfl
  | [], _ :: _ => isFalse nofun
  | _ :: _, [] => isFalse nofun
  | e :: es, f :: fs =>
    match decEq e f, decEqList es fs with
    | isTrue h, isTrue h' => isTrue (h ▸ h' ▸ rfl)
    | isFalse h, _ => isFalse fun heq => h (List.cons.inj heq).1
    | _, isFalse h => isFalse fun heq => h (List.cons.inj heq).2

end

instance [DecidableEq C] : DecidableEq (CScalar C) := decEq

mutual

def usedColumns [ScalarLeaf C] : CScalar C → Finset ℕ
  | constBool _ => ∅
  | other c => ScalarLeaf.usedColumns c
  | boolAnd children => usedColumnsAll children

def usedColumnsAll [ScalarLeaf C] : List (CScalar C) → Finset ℕ
  | [] => ∅
  | e :: es => e.usedColumns ∪ usedColumnsAll es

end

instance [ScalarLeaf C] : ScalarPredicate (CScalar C) := ⟨usedColumns, ScalarLeaf.fNullRejecting⟩

mutual

def collectConjuncts : CScalar C → List (CScalar C)
  | boolAnd children => collectConjunctsAll children
  | constBool value => [constBool value]
  | other c => [other c]

def collectConjunctsAll : List (CScalar C) → List (CScalar C)
  | [] => []
  | e :: es => e.collectConjuncts ++ collectConjunctsAll es

end

def pdrgpexprConjuncts (e : CScalar C) : List (CScalar C) := e.collectConjuncts

/-- Not an AND, so that splitting leaves it as it is. -/
def IsConjunct (e : CScalar C) : Prop := e.pdrgpexprConjuncts = [e]

variable {c e : CScalar C}

mutual

theorem isConjunct_of_mem :
    (e : CScalar C) → c ∈ e.collectConjuncts → c.IsConjunct
  | boolAnd children, h => by
    rw [collectConjuncts] at h
    exact isConjunct_of_mem_all children h
  | constBool value, h | other d, h => by
    rw [collectConjuncts,List.mem_singleton] at h
    rw [h,IsConjunct,pdrgpexprConjuncts,collectConjuncts]

theorem isConjunct_of_mem_all :
    (es : List (CScalar C)) → c ∈ collectConjunctsAll es → c.IsConjunct
  | [], h => by
    rw [collectConjunctsAll] at h
    cases h
  | e :: es, h => by
    rw [collectConjunctsAll,List.mem_append] at h
    rcases h with h | h
    · exact isConjunct_of_mem e h
    · exact isConjunct_of_mem_all es h

end

variable {es : List (CScalar C)}

theorem collectConjunctsAll_of_isConjunct (h : ∀ e ∈ es, e.IsConjunct) :
    collectConjunctsAll es = es := by
  induction es with
  | nil => rw [collectConjunctsAll]
  | cons e es ih =>
    have he : e.collectConjuncts = [e] := h e (List.mem_cons_self)
    rw [collectConjunctsAll,he,ih fun e' he' => h e' (List.mem_cons_of_mem _ he')]
    rfl

def fSkippable : CScalar C → Bool
  | constBool value => value
  | _ => false

def fReducible : CScalar C → Bool
  | constBool value => !value
  | _ => false

theorem eq_constTrue_of_fSkippable (h : e.fSkippable = true) : e = constBool true := by
  match e, h with
  | constBool true, _ => rfl

theorem eq_constFalse_of_fReducible (h : e.fReducible = true) : e = constBool false := by
  match e, h with
  | constBool false, _ => rfl

def assemble : List (CScalar C) → CScalar C
  | [] => constBool true
  | [e] => e
  | e :: f :: es => boolAnd (e :: f :: es)

/-- The loop of `PexprConjDisj` for a conjunction; `final` is `pdrgpexprFinal`. -/
def conjoin (final : List (CScalar C)) : List (CScalar C) → CScalar C
  | [] => assemble final
  | e :: es =>
    if e.fSkippable then conjoin final es
    else if e.fReducible then constBool false
    else conjoin (final ++ [e]) es

def pexprConjunction (es : List (CScalar C)) : CScalar C := conjoin [] es

section

variable [DecidableEq C] {a : Multiset (CScalar C)}

/-- The conjuncts as a conjunction keeps them: no TRUE, and nothing beside a FALSE. -/
def simplified (conjuncts : Multiset (CScalar C)) : Multiset (CScalar C) :=
  if constBool false ∈ conjuncts then {constBool false}
  else conjuncts.filter (· ≠ constBool true)

theorem simplified_of_mem (h : constBool false ∈ a) :
    simplified a = {constBool false} := if_pos h

theorem simplified_of_notMem (h : constBool false ∉ a) :
    simplified a = a.filter (· ≠ constBool true) := if_neg h

theorem constFalse_mem_simplified : constBool false ∈ simplified a ↔ constBool false ∈ a := by
  by_cases h : constBool false ∈ a
  · rw [simplified_of_mem h]
    exact ⟨fun _ => h,fun _ => mem_singleton_self _⟩
  · rw [simplified_of_notMem h,mem_filter]
    exact ⟨fun h' => h'.1,fun h' => ⟨h',nofun⟩⟩

theorem simplified_add {a' b b' : Multiset (CScalar C)} (ha : simplified a = simplified a')
    (hb : simplified b = simplified b') : simplified (a + b) = simplified (a' + b') := by
  have hfa : constBool false ∈ a ↔ constBool false ∈ a' := by
    rw [← constFalse_mem_simplified,ha,constFalse_mem_simplified]
  have hfb : constBool false ∈ b ↔ constBool false ∈ b' := by
    rw [← constFalse_mem_simplified,hb,constFalse_mem_simplified]
  by_cases h : constBool false ∈ a + b
  · have h' : constBool false ∈ a' + b' := by
      rwa [mem_add,← hfa,← hfb,← mem_add]
    rw [simplified_of_mem h,simplified_of_mem h']
  · have h' : constBool false ∉ a' + b' := by
      rwa [mem_add,← hfa,← hfb,← mem_add]
    rw [mem_add,not_or] at h h'
    rw [simplified_of_notMem h.1,simplified_of_notMem h'.1] at ha
    rw [simplified_of_notMem h.2,simplified_of_notMem h'.2] at hb
    rw [simplified_of_notMem (by rw [mem_add,not_or]; exact h),
      simplified_of_notMem (by rw [mem_add,not_or]; exact h'),filter_add,
      filter_add,ha,hb]

theorem simplified_cons_true (a : Multiset (CScalar C)) :
    simplified (constBool true ::ₘ a) = simplified a := by
  have hmem : constBool false ∈ constBool true ::ₘ a ↔ constBool false ∈ a := by
    rw [mem_cons,or_iff_right nofun]
  by_cases h : constBool false ∈ a
  · rw [simplified_of_mem h,simplified_of_mem (hmem.mpr h)]
  · rw [simplified_of_notMem h,simplified_of_notMem fun h' => h (hmem.mp h')]
    exact filter_cons_of_neg a (not_not.mpr rfl)

theorem simplified_assemble {final : List (CScalar C)} (h : ∀ e ∈ final, e.IsConjunct) :
    simplified ((assemble final).pdrgpexprConjuncts : Multiset (CScalar C)) =
      simplified (final : Multiset (CScalar C)) := by
  match final, h with
  | [], _ =>
    rw [assemble,pdrgpexprConjuncts,collectConjuncts]
    exact simplified_cons_true (0 : Multiset (CScalar C))
  | [e], h => rw [assemble,show e.pdrgpexprConjuncts = [e] from h e (List.mem_singleton_self e)]
  | e :: f :: es, h =>
    rw [assemble,pdrgpexprConjuncts,collectConjuncts,collectConjunctsAll_of_isConjunct h]

private theorem simplified_conjoin (final es : List (CScalar C))
    (hfi : ∀ e ∈ final, e.IsConjunct) (hes : ∀ e ∈ es, e.IsConjunct) :
    simplified ((conjoin final es).pdrgpexprConjuncts : Multiset (CScalar C)) =
      simplified ((final ++ es : List (CScalar C)) : Multiset (CScalar C)) := by
  induction es generalizing final with
  | nil => rw [List.append_nil,conjoin,simplified_assemble hfi]
  | cons e es ih =>
    have hrest : ∀ e' ∈ es, e'.IsConjunct := fun e' he' => hes e' (List.mem_cons_of_mem e he')
    have hsp : ((final ++ e :: es : List (CScalar C)) : Multiset (CScalar C)) =
        e ::ₘ ((final ++ es : List (CScalar C)) : Multiset (CScalar C)) := by
      rw [cons_coe]
      exact coe_eq_coe.mpr List.perm_middle
    rw [conjoin]
    split
    case isTrue hskip =>
      rw [ih final hfi hrest,hsp,eq_constTrue_of_fSkippable hskip,simplified_cons_true]
    case isFalse =>
      split
      case isTrue hred =>
        rw [hsp,eq_constFalse_of_fReducible hred,pdrgpexprConjuncts,collectConjuncts,
          simplified_of_mem (mem_cons_self _ _)]
        exact simplified_of_mem (mem_singleton_self _)
      case isFalse =>
        have hfi' : ∀ e' ∈ final ++ [e], e'.IsConjunct := by
          intro e' he'
          rcases List.mem_append.mp he' with he' | he'
          · exact hfi e' he'
          · rw [List.mem_singleton.mp he']
            exact hes e List.mem_cons_self
        rw [ih (final ++ [e]) hfi' hrest,List.append_assoc]
        rfl

theorem simplified_pexprConjunction (h : ∀ e ∈ es, e.IsConjunct) :
    simplified ((pexprConjunction es).pdrgpexprConjuncts : Multiset (CScalar C)) =
      simplified (es : Multiset (CScalar C)) :=
  simplified_conjoin [] es nofun h

end

end CScalar

end PgOrca
