import Mathlib.Tactic.Common

namespace Ext2fsX.Framework

/-- The first of the `k` places after `i` on a ring of `n` places that passes the test. -/
def firstAfter (n : ℕ) (p : ℕ → Bool) : ℕ → ℕ → Option ℕ
  | 0,_ => none
  | k+1,i =>
    let i := if n ≤ i+1 then 0 else i+1
    if p i then some i else firstAfter n p k i

theorem wrap_eq {n i : ℕ} (hi : i<n) : (if n ≤ i+1 then 0 else i+1)=(i+1)%n := by
  split
  · rw [show i+1=n by omega,Nat.mod_self]
  · rw [Nat.mod_eq_of_lt (by omega)]

section Ring

variable {n : ℕ} {p : ℕ → Bool} {k i : ℕ}

theorem firstAfter_some {c : ℕ} (hn : 0<n) (h : firstAfter n p k i=some c) : c<n ∧ p c=true := by
  induction k generalizing i with
  | zero => cases h
  | succ k ih =>
    unfold firstAfter at h
    have hstep : (if n ≤ i+1 then 0 else i+1)<n := by
      split <;> omega
    dsimp only at h
    generalize (if n ≤ i+1 then 0 else i+1)=q at h hstep
    split at h
    · next hp =>
      cases h
      exact ⟨hstep,hp⟩
    · exact ih h

theorem firstAfter_none (hi : i<n) (h : firstAfter n p k i=none) : ∀ m<k,p ((i+m+1)%n)=false := by
  induction k generalizing i with
  | zero => exact fun m hm => absurd hm (Nat.not_lt_zero m)
  | succ k ih =>
    unfold firstAfter at h
    rw [wrap_eq hi] at h
    dsimp only at h
    split at h
    · cases h
    next hp =>
    intro m hm
    cases m with
    | zero =>
      simpa using hp
    | succ m =>
      have hr := ih (Nat.mod_lt _ (by omega)) h m (by omega)
      rw [Nat.add_assoc,Nat.mod_add_mod] at hr
      rw [show i+(m+1)+1=i+1+(m+1) by omega]
      exact hr

/-- A walk over as many places as there are comes to every one of them. -/
theorem firstAfter_none_all (hi : i<n) (h : firstAfter n p n i=none) : ∀ c<n,p c=false := by
  intro c hc
  have hall := firstAfter_none hi h
  by_cases hlt : i < c
  · have hm := hall (c-i-1) (by omega)
    rwa [show i+(c-i-1)+1=c by omega,Nat.mod_eq_of_lt hc] at hm
  · have hm := hall (c+n-i-1) (by omega)
    rwa [show i+(c+n-i-1)+1=c+n by omega,Nat.add_mod_right,Nat.mod_eq_of_lt hc] at hm

end Ring

end Ext2fsX.Framework
