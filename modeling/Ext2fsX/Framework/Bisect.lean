import Mathlib.Data.Nat.Notation

namespace Ext2fsX.Framework

/-- The bisection of `p..q` for the first key above `h`. -/
def bisect (key : ℕ → ℕ) (h : ℕ) : ℕ → ℕ → ℕ → ℕ
  | 0,p,_ => p
  | fuel+1,p,q =>
    if p≤q then
      let m := p+(q-p)/2
      if h<key m then bisect key h fuel p (m-1) else bisect key h fuel (m+1) q
    else p

theorem bisect_spec {key : ℕ → ℕ} (h fuel : ℕ) {p q : ℕ}
    (hmono : ∀ i j,p ≤ i → i≤j → j≤q → key i≤key j) (hp : 0<p) (hpq : p≤q+1) (hf : q+1-p≤fuel) :
    p≤bisect key h fuel p q ∧ bisect key h fuel p q≤q+1 ∧
      (∀ i,p ≤ i → i<bisect key h fuel p q → key i≤h) ∧
      ∀ i,bisect key h fuel p q ≤ i → i≤q → h<key i := by
  induction fuel generalizing p q with
  | zero =>
    unfold bisect
    exact ⟨Nat.le_refl p,hpq,fun i h1 h2 => by omega,fun i h1 h2 => by omega⟩
  | succ fuel ih =>
    unfold bisect
    by_cases hle : p≤q
    · rw [if_pos hle]
      generalize hm : p+(q-p)/2=m
      have hpm : p ≤ m := by omega
      have hmq : m≤q := by omega
      by_cases hk : h<key m
      · rw [if_pos hk]
        obtain ⟨h1,h2,h3,h4⟩ := ih (p := p) (q := m-1)
          (fun i j a b c => hmono i j a b (by omega)) hp (by omega) (by omega)
        refine ⟨h1,by omega,h3,?_⟩
        intro i hi hiq
        by_cases him : i ≤ m-1
        · exact h4 i hi him
        · have := hmono m i hpm (by omega) hiq
          omega
      · rw [if_neg hk]
        obtain ⟨h1,h2,h3,h4⟩ := ih (p := m+1) (q := q)
          (fun i j a b c => hmono i j (by omega) b c) (by omega) (by omega) (by omega)
        refine ⟨by omega,h2,?_,h4⟩
        intro i hi hir
        by_cases him : m+1 ≤ i
        · exact h3 i him hir
        · have := hmono i m hi (by omega) hmq
          omega
    · rw [if_neg hle]
      exact ⟨Nat.le_refl p,hpq,fun i h1 h2 => by omega,fun i h1 h2 => by omega⟩

end Ext2fsX.Framework
