import Mathlib.Order.Basic

namespace Ext2fsX.Framework

/-- Where a counter below `M` can stand that was counted up `k` times from `g`. From `M-1` it starts
again at some number from 1 to `R`. -/
def Later (M R g c k : ℕ) : Prop :=
  (g+k<M ∧ c=g+k) ∨ (M≤g+k ∧ ∃ r,1 ≤ r ∧ r≤R ∧ c=r+(g+k-M))

namespace Later

variable {M R g c k : ℕ}

theorem refl (h : g<M) : Later M R g g 0 := Or.inl ⟨h,rfl⟩

section

variable (h : Later M R g c k)

include h

theorem succ (hlt : c+1<M) : Later M R g (c+1) (k+1) := by
  rcases h with ⟨_,hc⟩ | ⟨hk,r,h1,hR,hc⟩
  · exact Or.inl ⟨by omega,by omega⟩
  · exact Or.inr ⟨by omega,r,h1,hR,by omega⟩

/-- A counter that has started again does not reach the end within `k` steps. -/
theorem restart {r : ℕ} (hg : g<M) (hk : R+k<M) (hlast : c+1=M) (h1 : 1 ≤ r)
    (hR : r≤R) : Later M R g r (k+1) := by
  rcases h with ⟨_,hc⟩ | ⟨hk',r',_,hR',hc⟩
  · exact Or.inr ⟨by omega,r,h1,hR,by omega⟩
  · omega

/-- No number comes back. -/
theorem ne (hk : R+k<M) (hpos : 0<k) : c≠g := by
  rcases h with ⟨_,hc⟩ | ⟨_,r,_,hR,hc⟩ <;> omega

theorem pos (hg : 0<g) : 0 < c := by
  rcases h with ⟨_,hc⟩ | ⟨_,r,h1,_,hc⟩ <;> omega

end

end Later

end Ext2fsX.Framework
