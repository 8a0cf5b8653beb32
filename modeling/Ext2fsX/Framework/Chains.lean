import Mathlib.Data.Fintype.Pigeonhole

namespace Ext2fsX.Framework

variable {α : Type} {f : α → Option α} {a b : α}

/-- `n` links of a partial map, one after the other. -/
def climb (f : α → Option α) : ℕ → α → Option α
  | 0,a => some a
  | n+1,a => (f a).bind (climb f n)

@[simp] theorem climb_zero : climb f 0 a=some a := rfl

theorem climb_succ (n : ℕ) : climb f (n+1) a=(f a).bind (climb f n) := rfl

theorem climb_add (m n : ℕ) (a : α) : climb f (m+n) a=(climb f m a).bind (climb f n) := by
  induction m generalizing a with
  | zero => rw [Nat.zero_add,climb_zero,Option.bind_some]
  | succ m ih =>
    rw [Nat.succ_add,climb_succ,climb_succ,Option.bind_assoc]
    congr 1
    funext x
    exact ih x

theorem climb_none_of_le {m n : ℕ} (h : climb f m a=none) (hle : m≤n) : climb f n a=none := by
  obtain ⟨k,rfl⟩ := Nat.exists_eq_add_of_le hle
  rw [climb_add,h,Option.bind_none]

theorem climb_loop {n : ℕ} (h : climb f n b=some b) (m : ℕ) : climb f (m*n) b=some b := by
  induction m with
  | zero => rw [Nat.zero_mul,climb_zero]
  | succ m ih => rw [Nat.succ_mul,climb_add,ih,Option.bind_some,h]

/-- The chain from `a` never comes back to where it was. -/
def Unlooped (f : α → Option α) (a : α) : Prop :=
  ∀ k n b,climb f k a=some b → 0<n → climb f n b≠some b

/-- A chain whose links stay in a finite set ends exactly when it does not run into a loop. -/
theorem climb_ends_iff (bound : ℕ) (code : α → ℕ) (hinj : Function.Injective code)
    (hlt : ∀ a b,f a=some b → code b<bound) (a : α) :
    (∃ n,climb f n a=none) ↔ Unlooped f a := by
  constructor
  · rintro ⟨N,hN⟩ k n b hk hn hb
    have hround : climb f (k+N*n) a=some b := by
      rw [climb_add,hk,Option.bind_some,climb_loop hb]
    have hle : N≤k+N*n := Nat.le_add_left_of_le (Nat.le_mul_of_pos_right N hn)
    rw [climb_none_of_le hN hle] at hround
    cases hround
  intro h
  by_contra hall
  push Not at hall
  have hsome (n : ℕ) : ∃ b,climb f (n+1) a=some b ∧ code b<bound := by
    obtain ⟨b,hb⟩ := Option.ne_none_iff_exists'.mp (hall (n+1))
    refine ⟨b,hb,?_⟩
    rw [climb_add] at hb
    obtain ⟨c,-,hc⟩ := Option.bind_eq_some_iff.mp hb
    obtain ⟨d,hd,hd'⟩ := Option.bind_eq_some_iff.mp hc
    cases hd'
    exact hlt c _ hd
  choose g hg hgb using hsome
  obtain ⟨i,j,hij,he⟩ := Finite.exists_ne_map_eq_of_infinite
    (fun n => (⟨code (g n),hgb n⟩ : Fin bound))
  have hgij : g i=g j := hinj (congrArg Fin.val he)
  -- the later of the two places is a loop below the earlier one
  have key (i j : ℕ) (hlt : i<j) (hgij : g i=g j) : False := by
    refine h (i+1) (j-i) (g i) (hg i) (by omega) ?_
    have hj := hg j
    rw [show j+1=i+1+(j-i) by omega,climb_add,hg i,Option.bind_some] at hj
    rw [hj,hgij]
  rcases Nat.lt_or_gt_of_ne hij with hlt | hgt
  · exact key i j hlt hgij
  · exact key j i hgt hgij.symm

end Ext2fsX.Framework
