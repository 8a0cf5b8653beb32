import Mathlib.Data.Nat.Notation
import Mathlib.Tactic.Tauto

namespace Ext2fsX.Blocks.TruncateErrors

/-- An indirect block in `ext2_indirtrunc`: how its read and its write end, and the calls below it.
0 is success. -/
inductive Walk where
  | block (read write : ℕ) (below : List Walk)

mutual

def Walk.error : Walk → ℕ
  | .block read write below => if read≠0 then read else walkErrors write below

def walkErrors (allerror : ℕ) : List Walk → ℕ
  | [] => allerror
  | w::ws => walkErrors (if w.error≠0 then w.error else allerror) ws

end

mutual

def Walk.Failed : Walk → Prop
  | .block read write below => read≠0 ∨ write≠0 ∨ AnyFailed below

def AnyFailed : List Walk → Prop
  | [] => False
  | w::ws => w.Failed ∨ AnyFailed ws

end

/-- To the same size or of a short link, to a larger size, and to a smaller one: `tail` is
`ext2_balloc` for a partial last block, `roots` are the roots reached. -/
inductive Truncate where
  | same (update : ℕ)
  | grow (balloc update : ℕ)
  | shrink (invalidate : ℕ) (tail : Option ℕ) (update invalidateAgain : ℕ) (roots : List Walk)

namespace Truncate

/-- Assigned by the first `buf_invalidateblks`, by `ext2_update` and by the second one. -/
def error : Truncate → ℕ
  | same update => update
  | grow balloc update => if balloc≠0 then balloc else update
  | shrink _ tail _ invalidateAgain roots =>
    if tail.getD 0≠0 then tail.getD 0 else walkErrors invalidateAgain roots

def Failed : Truncate → Prop
  | same update => update≠0
  | grow balloc update => balloc≠0 ∨ update≠0
  | shrink invalidate tail update invalidateAgain roots =>
    invalidate≠0 ∨ tail.getD 0≠0 ∨ update≠0 ∨ invalidateAgain≠0 ∨ AnyFailed roots

/-- The first invalidation and the update of the inode do not fail, or a step after them does. -/
def Kept : Truncate → Prop
  | shrink invalidate tail update invalidateAgain roots =>
    invalidate=0 ∧ update=0 ∨ tail.getD 0≠0 ∨ invalidateAgain≠0 ∨ AnyFailed roots
  | _ => True

end Truncate

mutual

theorem Walk.error_ne_zero : ∀ w : Walk,w.error≠0 ↔ w.Failed
  | .block read write below => by
    rw [Walk.error,Walk.Failed]
    by_cases h : read=0
    · rw [if_neg (not_not.mpr h),walkErrors_ne_zero write below]
      simp [h]
    · simp [h]

theorem walkErrors_ne_zero (allerror : ℕ) : ∀ ws : List Walk,
    walkErrors allerror ws≠0 ↔ allerror≠0 ∨ AnyFailed ws
  | [] => by simp [walkErrors,AnyFailed]
  | w::ws => by
    have hw := w.error_ne_zero
    rw [walkErrors,walkErrors_ne_zero _ ws,AnyFailed,← hw]
    by_cases h : w.error=0
    · simp [h]
    · simp [h]

end

end Ext2fsX.Blocks.TruncateErrors
