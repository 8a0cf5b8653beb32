import Mathlib.Tactic.Common

namespace Ext2fsX.Framework

variable {ε : Type*} (blockOf : ℕ → ℕ) (n : ℕ)

def Covered (stale : ℕ → Prop) (mark : ℕ → Bool) : Prop :=
  ∀ i<n,stale i → mark (blockOf i)=true

/-- The copies of the entries after the blocks below `b` that are marked were written. -/
def writeBack (entry : ℕ → ε) (mark : ℕ → Bool) : ℕ → (ℕ → ε) → ℕ → ε
  | 0,store => store
  | b+1,store => fun i =>
    if blockOf i=b ∧ mark b=true then entry i else writeBack entry mark b store i

/-- The marks after the blocks below `b` were written. -/
def unmark (mark : ℕ → Bool) (b k : ℕ) : Bool := if k<b then false else mark k

theorem writeBack_eq (entry : ℕ → ε) (mark : ℕ → Bool) (b : ℕ) (store : ℕ → ε) (i : ℕ) :
    writeBack blockOf entry mark b store i=
      if blockOf i<b ∧ mark (blockOf i)=true then entry i else store i := by
  induction b with
  | zero => simp [writeBack]
  | succ b ih =>
    unfold writeBack
    rw [ih]
    by_cases hb : blockOf i=b
    · simp [hb]
    · have hlt : blockOf i<b+1 ↔ blockOf i<b := by omega
      simp [hb,hlt]

variable {blockOf n}

namespace Covered

variable {stale : ℕ → Prop} {mark mark' : ℕ → Bool}

/-- What becomes stale is marked and no mark is taken away. -/
theorem step (h : Covered blockOf n stale mark) {stale' : ℕ → Prop}
    (hm : ∀ b,mark b=true → mark' b=true) (hs : ∀ i<n,stale' i → stale i ∨ mark' (blockOf i)=true) : Covered blockOf n stale' mark' := by
  intro i hi hst
  obtain ho | hn := hs i hi hst
  · exact hm _ (h i hi ho)
  · exact hn

/-- When every stale entry is covered, writing the marked blocks makes all copies good. -/
theorem writeBack_all {entry store : ℕ → ε} (h : Covered blockOf n stale mark)
    (hs : ∀ i<n,¬stale i → store i=entry i) (b : ℕ) (hb : ∀ i<n,blockOf i<b) (i : ℕ) (hi : i<n) :
    writeBack blockOf entry mark b store i=entry i := by
  rw [writeBack_eq]
  by_cases hst : stale i
  · rw [if_pos ⟨hb i hi,h i hi hst⟩]
  · split
    · rfl
    · exact hs i hi hst

end Covered

end Ext2fsX.Framework
