import PgOrca.Library.Tuples

/-!
# Keys of a bag of rows

A set of columns is a key when no two rows of the bag agree on all of them,
where NULL agrees with NULL; in particular no row occurs twice.
-/

namespace PgOrca

open Multiset

variable {κ ν : Type*} [DecidableEq κ] {K K' : Finset κ} {X Y : Multiset (Row κ ν)}

def IsKey (K : Finset κ) (X : Multiset (Row κ ν)) : Prop := (X.map (Row.restrict K)).Nodup

theorem IsKey.of_le (h : IsKey K X) (hle : Y ≤ X) : IsKey K Y :=
  nodup_of_le (map_le_map hle) h

theorem IsKey.nodup (h : IsKey K X) : X.Nodup := Multiset.Nodup.of_map _ h

theorem IsKey.eq_of_agreeOn (h : IsKey K X) {r s : Row κ ν} (hr : r ∈ X) (hs : s ∈ X)
    (hag : Row.AgreeOn K r s) : r = s :=
  inj_on_of_nodup_map h r hr s hs (Row.restrict_eq_iff.mpr hag)

theorem isKey_iff : IsKey K X ↔
    X.Nodup ∧ ∀ r ∈ X, ∀ s ∈ X, Row.AgreeOn K r s → r = s := by
  constructor
  · intro h
    exact ⟨h.nodup,fun r hr s hs hag => h.eq_of_agreeOn hr hs hag⟩
  · rintro ⟨hn,hinj⟩
    exact hn.map_on fun r hr s hs heq => hinj r hr s hs (Row.restrict_eq_iff.mp heq)

theorem isKey_iff_nodup (h : Over X K) : IsKey K X ↔ X.Nodup := by
  rw [IsKey,map_congr rfl fun r hr => Row.restrict_of_supportedOn (h r hr),map_id']

theorem IsKey.mono (h : IsKey K X) (hK : K ⊆ K') : IsKey K' X := by
  rw [isKey_iff] at h ⊢
  exact ⟨h.1,fun r hr s hs hag => h.2 r hr s hs (hag.mono hK)⟩

theorem IsKey.card_le_one (h : IsKey K X) {r : Row κ ν} (hr : ∀ s ∈ X, Row.AgreeOn K s r) :
    X.card ≤ 1 := by
  by_contra hcard
  obtain ⟨s,Y,rfl⟩ : ∃ s Y, X = s ::ₘ Y := by
    obtain ⟨s,hs⟩ := card_pos_iff_exists_mem.mp (by omega : 0 < X.card)
    exact ⟨s,exists_cons_of_mem hs⟩
  rw [card_cons] at hcard
  obtain ⟨u,hu⟩ := card_pos_iff_exists_mem.mp (by omega : 0 < Y.card)
  have hsu : s = u := h.eq_of_agreeOn (mem_cons_self s Y) (mem_cons_of_mem hu)
    ((hr s (mem_cons_self s Y)).trans (hr u (mem_cons_of_mem hu)).symm)
  exact (nodup_cons.mp h.nodup).1 (hsu ▸ hu)

theorem IsKey.bind {K₁ : Finset κ} {f : Row κ ν → Multiset (Row κ ν)} (hX : IsKey K₁ X)
    (hK : K₁ ⊆ K) (hkeep : ∀ x ∈ X, ∀ r ∈ f x, Row.AgreeOn K₁ r x)
    (hf : ∀ x ∈ X, IsKey K (f x)) : IsKey K (X.bind f) := by
  rw [IsKey,Multiset.map_bind,nodup_bind]
  refine ⟨hf,Multiset.Nodup.pairwise (fun x hx y hy hne => ?_) hX.nodup⟩
  refine disjoint_left.mpr fun {k} hk hk' => hne ?_
  obtain ⟨r,hr,rfl⟩ := mem_map.mp hk
  obtain ⟨s,hs,hrs⟩ := mem_map.mp hk'
  have hag : Row.AgreeOn K₁ s r := (Row.restrict_eq_iff.mp hrs).mono hK
  exact hX.eq_of_agreeOn hx hy (((hkeep x hx r hr).symm.trans hag.symm).trans (hkeep y hy s hs))

end PgOrca
