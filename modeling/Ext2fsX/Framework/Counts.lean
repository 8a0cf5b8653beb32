import Mathlib.Data.List.Nodup

namespace Ext2fsX.Framework

variable {τ : Type*} {P Q : τ → Prop} {n : ℕ} {t : τ}

/-- Exactly `n` threads satisfy `P`: what a reference count says of its holders. -/
def Counts (n : ℕ) (P : τ → Prop) : Prop :=
  ∃ l : List τ,l.Nodup ∧ l.length=n ∧ ∀ t,t∈l ↔ P t

namespace Counts

theorem congr (h : Counts n P) (hq : ∀ u,Q u ↔ P u) : Counts n Q := by
  obtain ⟨l,hn,hl,hm⟩ := h
  exact ⟨l,hn,hl,fun u => (hm u).trans (hq u).symm⟩

theorem none (h : ∀ u,¬P u) : Counts 0 P := ⟨[],List.nodup_nil,rfl,fun u => by simp [h u]⟩

theorem enter (h : Counts n P) (ht : ¬P t) (hq : ∀ u,Q u ↔ u=t ∨ P u) : Counts (n+1) Q := by
  obtain ⟨l,hn,hl,hm⟩ := h
  refine ⟨t::l,List.nodup_cons.mpr ⟨fun hc => ht ((hm t).mp hc),hn⟩,by simp [hl],fun u => ?_⟩
  rw [List.mem_cons,hm u,hq u]

theorem leave [DecidableEq τ] (h : Counts n P) (ht : P t) (hq : ∀ u,Q u ↔ u≠t ∧ P u) :
    Counts (n-1) Q := by
  obtain ⟨l,hn,hl,hm⟩ := h
  have hmem : t∈l := (hm t).mpr ht
  refine ⟨l.erase t,hn.erase t,by rw [List.length_erase_of_mem hmem,hl],fun u => ?_⟩
  rw [hn.mem_erase_iff,hm u,hq u]

theorem pos (h : Counts n P) (ht : P t) : 0<n := by
  obtain ⟨l,-,hl,hm⟩ := h
  rw [← hl]
  exact List.length_pos_of_mem ((hm t).mpr ht)

end Counts

end Ext2fsX.Framework
