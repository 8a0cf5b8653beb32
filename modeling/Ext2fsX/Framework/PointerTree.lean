import Mathlib.Logic.Function.Basic

namespace Ext2fsX.Framework

variable {ι α : Type*} [Zero α]

/-- A slot, innermost index first, is live when it and every slot on the way to it are set. The
empty list is the root record. -/
def Live (ptr : List ι → α) : List ι → Prop
  | [] => True
  | o::q => ptr (o::q)≠0 ∧ Live ptr q

/-- The block that slot `p` is to point to has no pointers. -/
def clearUnder [DecidableEq ι] (ptr : List ι → α) (p : List ι) : List ι → α
  | [] => ptr []
  | o::q => if q=p then 0 else ptr (o::q)

namespace Live

variable {ptr ptr' : List ι → α}

variable {o : ι} {q : List ι}

theorem tail (h : Live ptr (o::q)) : Live ptr q := h.2

theorem mono (hk : ∀ o q,Live ptr (o::q) → ptr' (o::q)=ptr (o::q)) {r : List ι} (h : Live ptr r) : Live ptr' r := by
  induction r with
  | nil => trivial
  | cons o q ih =>
    refine ⟨?_,ih h.2⟩
    rw [hk o q h]
    exact h.1

variable [DecidableEq ι]

/-- A pointer stored in an empty slot makes this slot live, and no other of a set `V` that is closed
towards the root and has nothing under the new block. -/
theorem update_iff {V : List ι → Prop} (hV : ∀ o o' q,V (o::o'::q) → V (o'::q))
    (hq : Live ptr q) (h0 : ptr (o::q)=0) {b : α} (hb : b≠0)
    (hunder : ∀ o',V (o'::o::q) → ptr (o'::o::q)=0) {r : List ι} (hr : V r) :
    Live (Function.update ptr (o::q) b) r ↔ Live ptr r ∨ r=o::q := by
  have hdead : ¬Live ptr (o::q) := fun h => h.1 h0
  induction r with
  | nil => simp [Live]
  | cons i p ih =>
    have hp : Live (Function.update ptr (o::q) b) p ↔ Live ptr p ∨ p=o::q := by
      cases p with
      | nil => simp [Live]
      | cons i' p' => exact ih (hV i i' p' hr)
    by_cases he : i::p=o::q
    · have hpq : p=q := (List.cons.inj he).2
      have hlive : Live (Function.update ptr (o::q) b) p := hp.mpr (.inl (hpq ▸ hq))
      simp only [Live,he,Function.update_self,hlive,and_true,or_true,iff_true]
      exact hb
    · simp only [Live,Function.update_of_ne he,he,or_false,hp]
      constructor
      · rintro ⟨hi,hlive | rfl⟩
        · exact ⟨hi,hlive⟩
        · exact absurd (hunder i hr) hi
      · rintro ⟨hi,hlive⟩
        exact ⟨hi,.inl hlive⟩

/-- Clearing the block of a slot that is not set changes no live slot. -/
theorem clearUnder_iff (h0 : ptr (o::q)=0) (r : List ι) :
    Live (clearUnder ptr (o::q)) r ↔ Live ptr r := by
  have hdead : ¬Live ptr (o::q) := fun h => h.1 h0
  induction r with
  | nil => rfl
  | cons i p ih =>
    simp only [Live,ih,clearUnder]
    by_cases hp : p=o::q
    · subst hp
      simp [hdead]
    · rw [if_neg hp]

end Live

end Ext2fsX.Framework
