import Mathlib

/-!
# Cuts of a linear order

The end of an interval is a cut, whether the interval includes its end or not, so comparing the ends
of intervals is comparing cuts.
-/

namespace PgOrca

open WithBot (coe_le_coe coe_top coe_ne_bot coe_lt_coe)

variable {α : Type*} [LinearOrder α]

abbrev Cut (α : Type*) := WithBot (WithTop (α ×ₗ Bool))

namespace Cut

def below (a : α) : Cut α := ((toLex (a, false) : α ×ₗ Bool) : WithTop (α ×ₗ Bool))

def above (a : α) : Cut α := ((toLex (a, true) : α ×ₗ Bool) : WithTop (α ×ₗ Bool))

def Passed (c : Cut α) (v : α) : Prop := c ≤ below v

variable {a b v : α} {c d : Cut α}

@[simp] theorem below_le_below : below a ≤ below b ↔ a ≤ b := by
  simp only [below,coe_le_coe,WithTop.coe_le_coe,Prod.Lex.toLex_le_toLex]
  simp [le_iff_lt_or_eq]

@[simp] theorem above_le_above : above a ≤ above b ↔ a ≤ b := by
  simp only [above,coe_le_coe,WithTop.coe_le_coe,Prod.Lex.toLex_le_toLex]
  simp [le_iff_lt_or_eq]

@[simp] theorem below_le_above : below a ≤ above b ↔ a ≤ b := by
  simp only [below,above,coe_le_coe,WithTop.coe_le_coe,Prod.Lex.toLex_le_toLex]
  simp [le_iff_lt_or_eq]

@[simp] theorem above_le_below : above a ≤ below b ↔ a < b := by
  simp only [below,above,coe_le_coe,WithTop.coe_le_coe,Prod.Lex.toLex_le_toLex]
  simp

@[simp] theorem below_lt_below : below a < below b ↔ a < b := by
  rw [← not_le,below_le_below,not_le]

@[simp] theorem above_lt_above : above a < above b ↔ a < b := by
  rw [← not_le,above_le_above,not_le]

@[simp] theorem below_lt_above : below a < above b ↔ a ≤ b := by
  rw [← not_le,above_le_below,not_lt]

@[simp] theorem above_lt_below : above a < below b ↔ a < b := by
  rw [← not_le,below_le_above,not_le]

omit [LinearOrder α] in
@[simp] theorem below_ne_bot : below a ≠ ⊥ := coe_ne_bot

omit [LinearOrder α] in
@[simp] theorem above_ne_bot : above a ≠ ⊥ := coe_ne_bot

@[simp] theorem below_lt_top : below a < ⊤ := by
  rw [below,← coe_top,coe_lt_coe]
  exact WithTop.coe_lt_top _

@[simp] theorem above_lt_top : above a < ⊤ := by
  rw [above,← coe_top,coe_lt_coe]
  exact WithTop.coe_lt_top _

@[simp] theorem bot_lt_below : ⊥ < below a := bot_lt_iff_ne_bot.mpr below_ne_bot

@[simp] theorem bot_lt_above : ⊥ < above a := bot_lt_iff_ne_bot.mpr above_ne_bot

@[simp] theorem passed_bot : Passed (⊥ : Cut α) v := bot_le

@[simp] theorem not_passed_top : ¬ Passed (⊤ : Cut α) v := not_le.mpr below_lt_top

@[simp] theorem passed_below : Passed (below a) v ↔ a ≤ v := below_le_below

@[simp] theorem passed_above : Passed (above a) v ↔ a < v := above_le_below

theorem Passed.mono (h : c ≤ d) (hd : Passed d v) : Passed c v := h.trans hd

end Cut

def Between (lo hi : Cut α) (v : α) : Prop := lo.Passed v ∧ ¬ hi.Passed v

end PgOrca
