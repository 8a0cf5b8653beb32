import Mathlib.Data.Nat.Count

namespace Ext2fsX.Framework

/-- How many of the first `n` bits of a bitmap are clear. -/
def clearBits (f : ℕ → Bool) (n : ℕ) : ℕ := Nat.count (fun i => f i=false) n

variable (f : ℕ → Bool)

theorem clearBits_le (n : ℕ) : clearBits f n≤n := Nat.count_le _

theorem clearBits_congr (f g : ℕ → Bool) (n : ℕ) (h : ∀ i<n,f i=g i) :
    clearBits f n=clearBits g n := by
  induction n with
  | zero => simp [clearBits]
  | succ n ih =>
    have hn := ih (fun i hi => h i (by omega))
    unfold clearBits at hn ⊢
    rw [Nat.count_succ,Nat.count_succ,hn,h n (by omega)]

theorem clearBits_le_of_set (n m : ℕ) (h : ∀ j,m≤j → j<n → f j=true) : clearBits f n ≤ m := by
  induction n with
  | zero => simp [clearBits]
  | succ n ih =>
    have hn := ih (fun j hm hj => h j hm (by omega))
    by_cases hm : m≤n
    · have hs : clearBits f (n+1)=clearBits f n := by
        simp [clearBits,Nat.count_succ,h n hm (by omega)]
      omega
    · exact (clearBits_le f (n+1)).trans (by omega)

theorem clearBits_set (n j : ℕ) (hj : j<n) (h : f j=false) :
    clearBits (Function.update f j true) n+1=clearBits f n := by
  induction n with
  | zero => omega
  | succ n ih =>
    unfold clearBits at ih ⊢
    rw [Nat.count_succ,Nat.count_succ]
    by_cases hn : j=n
    · subst hn
      have hlow := clearBits_congr (Function.update f j true) f j
        (fun i hi => Function.update_of_ne (by omega) _ _)
      unfold clearBits at hlow
      simp [hlow,h]
    · have hlow := ih (by omega)
      rw [Function.update_of_ne (Ne.symm hn)]
      omega

theorem clearBits_clear (n j : ℕ) (hj : j<n) (h : f j=true) :
    clearBits (Function.update f j false) n=clearBits f n+1 := by
  have hs := clearBits_set (Function.update f j false) n j hj (Function.update_self _ _ _)
  rw [Function.update_idem,← h,Function.update_eq_self] at hs
  exact hs.symm

theorem clearBits_pos (n j : ℕ) (hj : j<n) (h : f j=false) : 0 < clearBits f n := by
  have hs := clearBits_set f n j hj h
  omega

theorem exists_clear_of_pos (n : ℕ) (h : 0 < clearBits f n) : ∃ j<n,f j=false := by
  by_contra hn
  have hset : ∀ j,0≤j → j<n → f j=true := by
    intro j _ hj
    by_contra hc
    exact hn ⟨j,hj,by simpa using hc⟩
  have := clearBits_le_of_set f n 0 hset
  omega

end Ext2fsX.Framework
