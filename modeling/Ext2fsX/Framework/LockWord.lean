import Mathlib.Data.Int.Notation
import Mathlib.Order.Basic

namespace Ext2fsX.Framework

open Function (update update_self update_of_ne)

variable {τ : Type*} [DecidableEq τ]

/-- Nothing, asleep on it, holder before the test for sleepers, about to wake them, or about to
release it. -/
inductive LockRole where
  | out
  | asleep
  | holder
  | waking
  | dropping
  deriving DecidableEq

namespace LockRole

def Holds : LockRole → Prop
  | holder | waking | dropping => True
  | _ => False

/-- The thread is going to wake the sleepers if the lock keeps its value. -/
def Wakes (lock : ℤ) : LockRole → Prop
  | waking => True
  | holder => lock<0
  | _ => False

end LockRole

instance (lock : ℤ) : DecidablePred (LockRole.Wakes lock)
  | .waking => .isTrue trivial
  | .holder => inferInstanceAs (Decidable (lock<0))
  | .out | .asleep | .dropping => .isFalse id

/-- The word is 0 when free, 1 when held, -1 when held with sleepers; whoever sleeps has a wakeup
still to come. -/
structure LockWord (lock : ℤ) (role : τ → LockRole) : Prop where
  word : lock=0 ∨ lock=1 ∨ lock=-1
  held : lock≠0 ↔ ∃ t,(role t).Holds
  one : ∀ t u,(role t).Holds → (role u).Holds → t=u
  woken : ∀ t,role t=.asleep → ∃ u,(role u).Wakes lock

namespace LockWord

variable {lock : ℤ} {role : τ → LockRole}

theorem holds_of_wakes {r : LockRole} (h : r.Wakes lock) : r.Holds := by
  cases r with
  | holder => trivial
  | waking => trivial
  | _ => exact h.elim

private theorem split (role : τ → LockRole) (t : τ) (r : LockRole) (u : τ) :
    (u=t ∧ update role t r u=r) ∨ (u≠t ∧ update role t r u=role u) := by
  by_cases hu : u=t
  · subst hu
    exact .inl ⟨rfl,update_self ..⟩
  · exact .inr ⟨hu,update_of_ne hu ..⟩

omit [DecidableEq τ] in
theorem free (h : LockWord 0 role) (t : τ) : ¬(role t).Holds := fun ht => (h.held.mpr ⟨t,ht⟩) rfl

omit [DecidableEq τ] in
theorem congr (h : LockWord lock role) {role' : τ → LockRole}
    (holds : ∀ u,(role' u).Holds ↔ (role u).Holds)
    (woken : ∀ u,role' u=.asleep → ∃ v,(role' v).Wakes lock) : LockWord lock role' :=
  ⟨h.word,h.held.trans (exists_congr fun u => (holds u).symm),
    fun u w hu hw => h.one u w ((holds u).mp hu) ((holds w).mp hw),woken⟩

theorem sleep (h : LockWord lock role) (t : τ) (ht : role t=.out)
    (hw : ∃ u,(role u).Wakes lock) : LockWord lock (update role t .asleep) := by
  have holds (u : τ) : (update role t .asleep u).Holds ↔ (role u).Holds := by
    rcases split role t .asleep u with ⟨rfl,he⟩ | ⟨-,he⟩
    · rw [he,ht]
      exact Iff.rfl
    · rw [he]
  obtain ⟨v,hv⟩ := hw
  have hvt : v≠t := by
    rintro rfl
    rw [ht] at hv
    exact hv
  refine h.congr holds fun _ _ => ⟨v,?_⟩
  rw [update_of_ne hvt]
  exact hv

omit [DecidableEq τ] in
theorem mark (h : LockWord lock role) (hl : lock≠0) : LockWord (-1) role := by
  refine ⟨.inr (.inr rfl),?_,h.one,?_⟩
  · exact ⟨fun _ => h.held.mp hl,fun _ => by decide⟩
  intro t ht
  obtain ⟨u,hu⟩ := h.woken t ht
  refine ⟨u,?_⟩
  cases hr : role u with
  | holder => exact (by decide : (-1 : ℤ)<0)
  | waking => trivial
  | _ => rw [hr] at hu; exact hu

theorem win (h : LockWord 0 role) (t : τ) : LockWord 1 (update role t .holder) := by
  have only (u : τ) (hu : (update role t .holder u).Holds) : u=t := by
    rcases split role t .holder u with ⟨he,-⟩ | ⟨-,he⟩
    · exact he
    · rw [he] at hu
      exact absurd hu (h.free u)
  refine ⟨.inr (.inl rfl),?_,?_,?_⟩
  · refine ⟨fun _ => ⟨t,?_⟩,fun _ => by decide⟩
    rw [update_self]
    trivial
  · exact fun u v hu hv => (only u hu).trans (only v hv).symm
  · intro u hu
    rcases split role t .holder u with ⟨-,he⟩ | ⟨-,he⟩
    · rw [he] at hu
      cases hu
    · rw [he] at hu
      obtain ⟨v,hv⟩ := h.woken u hu
      exact absurd (holds_of_wakes hv) (h.free v)

theorem advance (h : LockWord lock role) (t : τ) (r : LockRole) (ht : (role t).Holds) (hr : r.Holds)
    (hw : ∀ u,role u=.asleep → (role t).Wakes lock → r.Wakes lock) :
    LockWord lock (update role t r) := by
  have holds (u : τ) : (update role t r u).Holds ↔ (role u).Holds := by
    rcases split role t r u with ⟨rfl,he⟩ | ⟨-,he⟩
    · rw [he]
      exact ⟨fun _ => ht,fun _ => hr⟩
    · rw [he]
  refine h.congr holds fun u hu => ?_
  have hsl : role u=.asleep := by
    rcases split role t r u with ⟨-,he⟩ | ⟨-,he⟩
    · rw [he] at hu
      rw [hu] at hr
      exact hr.elim
    · rwa [he] at hu
  obtain ⟨v,hv⟩ := h.woken u hsl
  have hvt := h.one v t (holds_of_wakes hv) ht
  refine ⟨t,?_⟩
  rw [update_self]
  exact hw u hsl (hvt ▸ hv)

omit [DecidableEq τ] in
/-- The sleepers are woken: nobody sleeps on the lock afterwards. -/
theorem wake (h : LockWord lock role) (role' : τ → LockRole)
    (hr : ∀ u,role' u=if role u=.asleep then .out else role u) : LockWord lock role' := by
  have holds (u : τ) : (role' u).Holds ↔ (role u).Holds := by
    rw [hr u]
    split
    · rename_i hs
      rw [hs]
      exact Iff.rfl
    · exact Iff.rfl
  refine h.congr holds fun u hu => ?_
  rw [hr u] at hu
  split at hu
  · cases hu
  · exact absurd hu (by assumption)

theorem release (h : LockWord lock role) (t : τ) (ht : role t=.dropping) :
    LockWord 0 (update role t .out) := by
  have hold : (role t).Holds := by rw [ht]; trivial
  have none (u : τ) : ¬(update role t .out u).Holds := by
    rcases split role t .out u with ⟨-,he⟩ | ⟨hne,he⟩
    · rw [he]
      exact id
    · rw [he]
      exact fun hu => hne (h.one u t hu hold)
  refine ⟨.inl rfl,?_,?_,?_⟩
  · exact ⟨fun hc => absurd rfl hc,fun ⟨u,hu⟩ => absurd hu (none u)⟩
  · exact fun u w hu => absurd hu (none u)
  intro u hu
  rcases split role t .out u with ⟨-,he⟩ | ⟨-,he⟩
  · rw [he] at hu
    cases hu
  · rw [he] at hu
    obtain ⟨v,hv⟩ := h.woken u hu
    have hvt := h.one v t (holds_of_wakes hv) hold
    rw [hvt,ht] at hv
    exact hv.elim

end LockWord

end Ext2fsX.Framework
