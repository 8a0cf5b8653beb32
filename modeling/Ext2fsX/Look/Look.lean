import Ext2fsX.Framework.Machine
import Mathlib.Logic.Function.Basic

namespace Ext2fsX.Look

open Framework

/-- What a function does with the inode lock, `IN_LOOK` and `IN_LOOKWAIT`; every other test is a
choice. The sleeping loop is entered at `acquire`; `nolck`: it sleeps with `ISLEEP_NOLCK`.
`dropLoad` is a release without the lock. -/
inductive Code where
  | ret
  | lock (k : Code)
  | unlock (k : Code)
  | choice (a b : Code)
  | acquire (nolck : Bool) (k : Code)
  | wait (nolck : Bool) (k : Code)
  | gap (k : Code)
  | asleep (nolck : Bool) (k : Code)
  | woken (nolck : Bool) (k : Code)
  | take (k : Code)
  | giveUp (k : Code)
  | dropLoad (k : Code)
  | dropStore (lookWait : Bool) (k : Code)
  | wakeTest (k : Code)
  | wakeLoad (k : Code)
  | wakeStore (look : Bool) (k : Code)
  | wakeup (k : Code)
  deriving DecidableEq

namespace Code

def sections : ℕ → Code → Code
  | 0,k => k
  | n+1,k => lock (unlock (sections n k))

/-- Reads and allocations that release the lock: `ext2_dirempty`, `ext3_bread`. -/
def breaks : ℕ → Code → Code
  | 0,k => k
  | n+1,k => unlock (lock (breaks n k))

/-- `dp->i_flag &= ~IN_LOOK; IWAKE(dp, flag, flag, IN_LOOKWAIT); IULOCK(dp); return`. -/
def leave : Code := giveUp (unlock ret)

variable (n : ℕ)

/-- `ext2_lookup`; the first choice is a hit in the name cache. -/
def lookup : Code :=
  choice ret (lock (acquire false (unlock (sections n (lock leave)))))

def readdirDone (havelook : Bool) : Code := if havelook then leave else unlock ret

def readdirPlain (havelook : Bool) (n : ℕ) : Code :=
  choice (readdirDone havelook)
    (unlock (choice (lock (readdirDone havelook))
      (choice (lock (readdirDone havelook)) (sections n (lock (readdirDone havelook))))))

def readdir : Code :=
  choice ret (lock (choice (unlock ret) (acquire false
    (choice
      (choice leave (choice leave (breaks n (choice leave (giveUp (readdirPlain false n))))))
      (readdirPlain true n)))))

/-- An indexed directory, a new block, or the compaction of a block, followed by `ext2_truncate`. -/
def direnterSlot : Code :=
  choice
    (choice (unlock (sections n (lock (breaks n leave)))) (unlock (sections n (lock leave))))
    (unlock (sections n (lock (choice leave (giveUp (unlock (sections n ret)))))))

def direnter : Code :=
  let rest := choice (breaks n (choice leave (direnterSlot n))) (direnterSlot n)
  lock (acquire true (choice rest (unlock (sections n (lock (choice rest leave))))))

/-- `ext2_dirremove`: an indexed directory, the first record of a block, or another one. -/
def dirremove : Code :=
  let write := unlock (sections n (choice (lock (unlock (lock leave))) (lock leave)))
  let rest := choice (breaks n (choice leave leave)) (choice write write)
  lock (acquire false (choice rest (unlock (sections n (lock (choice rest leave))))))

/-- `ext2_dirrewrite_nolock`; an indexed directory without the entry is left without
the lock. -/
def dirrewriteNolock : Code :=
  let rest := unlock (choice
    (lock (breaks n (unlock (choice (dropLoad ret) (lock leave))))) (sections n (lock leave)))
  lock (acquire false (choice rest (unlock (sections n (lock (choice rest leave))))))

/-- `ext2_rmdir` on the directory it removes: not empty, not permitted, or removed. -/
def rmdir : Code :=
  let out := lock leave
  let removed := choice (unlock out) (unlock (choice out (lock (unlock (sections n out)))))
  choice ret (lock (acquire false
    (choice (unlock out)
      (breaks n (choice (unlock out) (choice removed (unlock (lock removed))))))))

def roused : Code → Code
  | asleep nolck k => woken nolck k
  | k => k

end Code

inductive Fn where
  | lookup
  | readdir
  | direnter
  | dirremove
  | dirrewriteNolock
  | rmdir

def Fn.code : Fn → ℕ → Code
  | lookup => Code.lookup
  | readdir => Code.readdir
  | direnter => Code.direnter
  | dirremove => Code.dirremove
  | dirrewriteNolock => Code.dirrewriteNolock
  | rmdir => Code.rmdir

variable (τ : Type)

/-- One directory inode. `looking t` says that `t` has set `IN_LOOK` and not yet cleared it. -/
structure State where
  lock : Option τ
  look : Bool
  lookWait : Bool
  code : τ → Code
  looking : τ → Bool

inductive Act (τ : Type) where
  | call (t : τ) (f : Fn) (n : ℕ)
  | run (t : τ) (b : Bool)

def Act.thread {τ : Type} : Act τ → τ
  | .call t _ _ | .run t _ => t

namespace State

variable {τ : Type} [DecidableEq τ] (s : State τ)

def goto (t : τ) (k : Code) : State τ :=
  { s with code := Function.update s.code t k }

def setLooking (t : τ) (b : Bool) : State τ :=
  { s with looking := Function.update s.looking t b }

def wakeAll : State τ :=
  { s with code := fun t => (s.code t).roused }

def iwake : State τ :=
  if s.lookWait then { s with lookWait := false }.wakeAll else s

def run (t : τ) (b : Bool) : Option (State τ) :=
  match s.code t with
  | .ret | .asleep _ _ => none
  | .lock k => if s.lock=none then some ({ s with lock := some t }.goto t k) else none
  | .unlock k => some ({ s with lock := none }.goto t k)
  | .choice k l => some (s.goto t (if b then k else l))
  | .acquire nolck k => some (s.goto t (if s.look then .wait nolck k else .take k))
  | .wait nolck k =>
    some ({ s with lookWait := true, lock := none }.goto t
      (if nolck then .gap k else .asleep false k))
  | .gap k => some (s.goto t (.asleep true k))
  | .woken nolck k =>
    if s.lock=none then some ({ s with lock := some t }.goto t (.acquire nolck k)) else none
  | .take k => some (({ s with look := true }.setLooking t true).goto t k)
  | .giveUp k => some ((({ s with look := false }.setLooking t false).iwake).goto t k)
  | .dropLoad k => some (s.goto t (.dropStore s.lookWait k))
  | .dropStore w k =>
    some (({ s with look := false, lookWait := w }.setLooking t false).goto t (.wakeTest k))
  | .wakeTest k => some (s.goto t (if s.lookWait then .wakeLoad k else k))
  | .wakeLoad k => some (s.goto t (.wakeStore s.look k))
  | .wakeStore l k => some ({ s with look := l, lookWait := false }.goto t (.wakeup k))
  | .wakeup k => some (s.wakeAll.goto t k)

def next (x : Act τ) (s : State τ) : Option (State τ) :=
  match x with
  | .call t f n => if s.code t=.ret then some (s.goto t (f.code n)) else none
  | .run t b => s.run t b

end State

def lookMachine [DecidableEq τ] : Machine (State τ) (Act τ) where
  init s := s.lock=none ∧ s.look=false ∧ s.lookWait=false ∧ (∀ t,s.code t=.ret) ∧
    ∀ t,s.looking t=false
  next := State.next

def lookStart : State τ where
  lock := none
  look := false
  lookWait := false
  code _ := .ret
  looking _ := false

theorem lookStart_init [DecidableEq τ] : (lookMachine τ).init (lookStart τ) :=
  ⟨rfl,rfl,rfl,fun _ => rfl,fun _ => rfl⟩

end Ext2fsX.Look
