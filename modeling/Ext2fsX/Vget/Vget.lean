import Ext2fsX.Framework.Machine
import Mathlib.Data.Int.Notation
import Mathlib.Logic.Function.Basic
import Mathlib.Tactic.Simps.Basic

namespace Ext2fsX.Vget

open Framework

variable (τ : Type)

/-- `IN_INIT`, `IN_INITWAIT` and `IN_HASHED`, `i_refct`, the holder of `i_lock`, whether it has a
vnode, whether that is being reclaimed, who holds an iocount, and whether `FREE` was called. -/
structure Inode where
  init : Bool
  initWait : Bool
  hashed : Bool
  refct : ℕ
  owner : Option τ
  vnode : Bool
  dead : Bool
  users : List τ
  freed : Bool

/-- Sleep channels: `&ext2fs_inode_hash_lock`, `&ip->i_flag` and `&ip->i_flags`. -/
inductive Chan where
  | hashLock
  | flag (ip : ℕ)
  | flags (ip : ℕ)
  deriving DecidableEq

/-- In `ext2_vget_internal` and what it calls, or in `ext2_reclaim`. A compare-and-swap is two
steps: its first argument is read before it. -/
inductive Pc where
  | start
  | hashGet
  | ixlock (ip : ℕ)
  | initSleep (ip : ℕ)
  | initWoken (ip : ℕ)
  | getwithvid (ip : ℕ)
  | lockTest
  | lockWhile
  | markArg
  | markCas (v : ℤ)
  | lockMsleep
  | lockSleep
  | takeArg
  | takeCas (v : ℤ)
  | malloc
  | insert (ip : ℕ)
  | wakeTest (ip : ℕ)
  | wake (ip : ℕ)
  | dropArg (ip : ℕ)
  | dropCas (ip : ℕ) (v : ℤ)
  | bread (ip : ℕ)
  | vinit (ip : ℕ)
  | vnodeCreate (ip : ℕ)
  | relock (ip : ℕ) (made : Bool)
  | irelse (ip : ℕ)
  | irelLoop (ip : ℕ)
  | irelWake (ip : ℕ)
  | irelRelock (ip : ℕ)
  | irelSleep (ip : ℕ)
  | irelFree (ip : ℕ)
  | reclaim (ip : ℕ)
  | reclaimUpdate (ip : ℕ)
  | reclaimRelock (ip : ℕ)
  | reclaimRemove (ip : ℕ)
  | reclaimLoop (ip : ℕ)
  | reclaimSleep (ip : ℕ)
  | reclaimFree (ip : ℕ)
  | done (r : Option ℕ)
  | gone (r : Option ℕ)
  deriving DecidableEq

namespace Pc

/-- The channel a thread is asleep on. -/
def chan : Pc → Option Chan
  | lockSleep => some .hashLock
  | initSleep ip => some (.flags ip)
  | irelSleep ip => some (.flag ip)
  | reclaimSleep ip => some (.flag ip)
  | _ => none

def woken : Pc → Pc
  | lockSleep => lockWhile
  | initSleep ip => initWoken ip
  | p => p

/-- The inode whose memory the next step reads, writes, locks or frees. -/
def touches : Pc → Option ℕ
  | ixlock ip | initWoken ip | insert ip | bread ip | vinit ip | relock ip _ | irelse ip
  | irelLoop ip | irelWake ip | irelRelock ip | irelSleep ip | irelFree ip | reclaim ip
  | reclaimUpdate ip | reclaimRelock ip | reclaimRemove ip | reclaimLoop ip | reclaimSleep ip
  | reclaimFree ip => some ip
  | _ => none

def result : Pc → Option ℕ
  | done r => r
  | gone r => r
  | _ => none

end Pc

/-- Success of a read or of `vnode_create`, a vnode of another identity, a failure, `IN_LAZYMOD`
found set. -/
inductive Env where
  | ok
  | noent
  | error
  | lazymod
  deriving DecidableEq

/-- The inodes of one device and inode number. -/
structure State where
  hashLock : ℤ
  chain : List ℕ
  inode : ℕ → Inode τ
  fresh : ℕ
  pc : τ → Pc
  fault : Bool

inductive Act (τ : Type) where
  | call (t : τ)
  | put (t : τ)
  | reclaim (t : τ) (ip : ℕ)
  | run (t : τ) (e : Env)

def Act.thread {τ : Type} : Act τ → τ
  | .call t | .put t | .reclaim t _ | .run t _ => t

namespace State

variable {τ : Type} [DecidableEq τ] (s : State τ) (t : τ)

def goto (p : Pc) : State τ := { s with pc := Function.update s.pc t p }

def setInode (ip : ℕ) (i : Inode τ) : State τ :=
  { s with inode := Function.update s.inode ip i }

def wakeup (c : Chan) : State τ :=
  { s with pc := fun t => if (s.pc t).chan=some c then (s.pc t).woken else s.pc t }

def compareAndSwap (old new : ℤ) : State τ :=
  if s.hashLock=old then { s with hashLock := new } else s

def hashRemove (ip : ℕ) : State τ :=
  if (s.inode ip).hashed then
    { s.setInode ip { s.inode ip with hashed := false } with chain := s.chain.erase ip }
  else s

/-- The section of `ext2_hash_get` under the inode lock, from the test of `IN_INIT`. -/
def hashGetLocked (ip : ℕ) (i : Inode τ) : State τ :=
  if i.init then
    (s.setInode ip { i with initWait := true, refct := i.refct+1 }).goto t (.initSleep ip)
  else if i.hashed then (s.setInode ip i).goto t (.getwithvid ip)
  else (s.setInode ip i).goto t (.done none)

/-- The end of a successful `ext2_vget_internal`, under the inode lock. -/
def vgetFinish (ip : ℕ) : State τ :=
  let i := s.inode ip
  let s' := (s.setInode ip { i with init := false, initWait := false }).goto t (.done (some ip))
  if i.initWait then s'.wakeup (.flag ip) else s'

def ixlock (ip : ℕ) (k : State τ) : Option (State τ) :=
  if (s.inode ip).owner=none then some k else none

def body (e : Env) : Option (State τ) :=
  match s.pc t with
  | .start | .done _ | .gone _ | .initSleep _ | .lockSleep => none
  | .hashGet =>
    match s.chain with
    | ip::_ => some (s.goto t (.ixlock ip))
    | [] => some (s.goto t .lockTest)
  | .ixlock ip => s.ixlock ip (s.hashGetLocked t ip (s.inode ip))
  | .initWoken ip =>
    s.ixlock ip (s.hashGetLocked t ip { s.inode ip with refct := (s.inode ip).refct-1 })
  | .getwithvid ip =>
    match e,(s.inode ip).dead with
    | .ok,false =>
      some ((s.setInode ip { s.inode ip with users := t::(s.inode ip).users }).goto t
        (.done (some ip)))
    | .noent,true => some (s.goto t .hashGet)
    | .error,_ => some (s.goto t (.done none))
    | _,_ => none
  | .lockTest => some (s.goto t (if s.hashLock=0 then .takeArg else .lockWhile))
  | .lockWhile => some (s.goto t (if s.hashLock=0 then .hashGet else .markArg))
  | .markArg => some (s.goto t (.markCas s.hashLock))
  | .markCas v => some ((s.compareAndSwap v (-1)).goto t .lockMsleep)
  | .lockMsleep => some (s.goto t .lockSleep)
  | .takeArg => some (s.goto t (.takeCas s.hashLock))
  | .takeCas v =>
    some ((s.compareAndSwap v 1).goto t (if s.hashLock=v then .malloc else .hashGet))
  | .malloc =>
    some ({ s.setInode s.fresh ⟨true,false,false,0,some t,false,false,[],false⟩ with
      fresh := s.fresh+1 }.goto t (.insert s.fresh))
  | .insert ip =>
    some ({ s.setInode ip { s.inode ip with hashed := true } with
      chain := ip::s.chain }.goto t (.wakeTest ip))
  | .wakeTest ip => some (s.goto t (if s.hashLock<0 then .wake ip else .dropArg ip))
  | .wake ip => some ((s.wakeup .hashLock).goto t (.dropArg ip))
  | .dropArg ip => some (s.goto t (.dropCas ip s.hashLock))
  | .dropCas ip v => some ((s.compareAndSwap v 0).goto t (.bread ip))
  | .bread ip =>
    match e with
    | .ok => some (s.goto t (.vinit ip))
    | .error => some (s.goto t (.irelse ip))
    | _ => none
  | .vinit ip =>
    match e with
    | .ok => some ((s.setInode ip { s.inode ip with owner := none }).goto t (.vnodeCreate ip))
    | .error => some (s.goto t (.irelse ip))
    | _ => none
  | .vnodeCreate ip =>
    match e with
    | .ok =>
      some ((s.setInode ip { s.inode ip with vnode := true, users := [t] }).goto t
        (.relock ip true))
    | .error => some (s.goto t (.relock ip false))
    | _ => none
  | .relock ip made =>
    s.ixlock ip (if made then s.vgetFinish t ip
      else (s.setInode ip { s.inode ip with owner := some t }).goto t (.irelse ip))
  | .irelse ip => some ((s.hashRemove ip).goto t (.irelLoop ip))
  | .irelLoop ip =>
    let i := s.inode ip
    if i.initWait then
      some ((s.setInode ip { i with initWait := false, owner := none }).goto t (.irelWake ip))
    else if 0 < i.refct then
      some ((s.setInode ip { i with refct := i.refct+1, owner := none }).goto t (.irelSleep ip))
    else some ((s.setInode ip { i with owner := none }).goto t (.irelFree ip))
  | .irelWake ip => some ((s.wakeup (.flag ip)).goto t (.irelRelock ip))
  | .irelRelock ip =>
    s.ixlock ip ((s.setInode ip { s.inode ip with owner := some t }).goto t (.irelLoop ip))
  | .irelSleep ip =>
    s.ixlock ip ((s.setInode ip { s.inode ip with
      refct := (s.inode ip).refct-1
      owner := some t }).goto t (.irelLoop ip))
  | .irelFree ip =>
    some ((s.setInode ip { s.inode ip with freed := true }).goto t (.done none))
  | .reclaim ip =>
    s.ixlock ip (if e=.lazymod then s.goto t (.reclaimUpdate ip)
      else (s.setInode ip { s.inode ip with owner := some t }).goto t (.reclaimRemove ip))
  | .reclaimUpdate ip => some (s.goto t (.reclaimRelock ip))
  | .reclaimRelock ip =>
    s.ixlock ip ((s.setInode ip { s.inode ip with owner := some t }).goto t (.reclaimRemove ip))
  | .reclaimRemove ip => some ((s.hashRemove ip).goto t (.reclaimLoop ip))
  | .reclaimLoop ip =>
    let i := s.inode ip
    if 0 < i.refct then
      some ((s.setInode ip { i with refct := i.refct+1, owner := none }).goto t
        (.reclaimSleep ip))
    else some ((s.setInode ip { i with owner := none }).goto t (.reclaimFree ip))
  | .reclaimSleep ip =>
    s.ixlock ip ((s.setInode ip { s.inode ip with
      refct := (s.inode ip).refct-1
      owner := some t }).goto t (.reclaimLoop ip))
  | .reclaimFree ip =>
    some ((s.setInode ip { s.inode ip with freed := true }).goto t (.gone none))

/-- One step of a thread; a step on a freed inode is the fault. -/
def run (e : Env) : Option (State τ) :=
  match (s.pc t).touches with
  | none => s.body t e
  | some ip => if (s.inode ip).freed then some { s with fault := true } else s.body t e

/-- A vnode is reclaimed once, when nobody holds an iocount on it. -/
def next (x : Act τ) (s : State τ) : Option (State τ) :=
  if s.fault then none
  else match x with
  | .call t => if s.pc t=.start then some (s.goto t .hashGet) else none
  | .put t =>
    match s.pc t with
    | .done none => some (s.goto t (.gone none))
    | .done (some ip) =>
      some ((s.setInode ip { s.inode ip with
        users := (s.inode ip).users.erase t }).goto t (.gone (some ip)))
    | _ => none
  | .reclaim t ip =>
    if s.pc t=.start ∧ ip < s.fresh ∧ (s.inode ip).vnode ∧ (s.inode ip).users=[] ∧
        (s.inode ip).dead=false then
      some ((s.setInode ip { s.inode ip with dead := true }).goto t (.reclaim ip))
    else none
  | .run t e => s.run t e

/-- The steps that move the thread and change nothing else. -/
inductive Move (s : State τ) : Pc → Pc → Prop
  | unhashed : s.chain=[] → Move s .hashGet .lockTest
  | stale : (s.inode ip).dead=true → Move s (.getwithvid ip) .hashGet
  | refused : Move s (.getwithvid ip) (.done none)
  | free : s.hashLock=0 → Move s .lockTest .takeArg
  | busy : s.hashLock≠0 → Move s .lockTest .lockWhile
  | again : s.hashLock=0 → Move s .lockWhile .hashGet
  | wait : s.hashLock≠0 → Move s .lockWhile .markArg
  | markArg : Move s .markArg (.markCas s.hashLock)
  | takeArg : Move s .takeArg (.takeCas s.hashLock)
  | dropArg : Move s (.dropArg ip) (.dropCas ip s.hashLock)
  | bread : Move s (.bread ip) (.vinit ip)
  | breadFailed : Move s (.bread ip) (.irelse ip)
  | vinitFailed : Move s (.vinit ip) (.irelse ip)
  | createFailed : Move s (.vnodeCreate ip) (.relock ip false)
  | lazymod : Move s (.reclaim ip) (.reclaimUpdate ip)
  | updated : Move s (.reclaimUpdate ip) (.reclaimRelock ip)

inductive Step (s : State τ) (t : τ) : Pc → State τ → Prop
  | move : s.Move p q → Step s t p (s.goto t q)
  | pick : s.chain=ip::l → Step s t .hashGet (s.goto t (.ixlock ip))
  | ixlock : Step s t (.ixlock ip) (s.hashGetLocked t ip (s.inode ip))
  | initWoken : Step s t (.initWoken ip)
      (s.hashGetLocked t ip { s.inode ip with refct := (s.inode ip).refct-1 })
  | getwithvid : Step s t (.getwithvid ip)
      ((s.setInode ip { s.inode ip with users := t::(s.inode ip).users }).goto t (.done (some ip)))
  | markCas : Step s t (.markCas v) ((s.compareAndSwap v (-1)).goto t .lockMsleep)
  | lockMsleep : Step s t .lockMsleep (s.goto t .lockSleep)
  | takeCas : Step s t (.takeCas v)
      ((s.compareAndSwap v 1).goto t (if s.hashLock=v then .malloc else .hashGet))
  | malloc : Step s t .malloc
      ({ s.setInode s.fresh ⟨true,false,false,0,some t,false,false,[],false⟩ with
        fresh := s.fresh+1 }.goto t (.insert s.fresh))
  | insert : Step s t (.insert ip)
      ({ s.setInode ip { s.inode ip with hashed := true } with
        chain := ip::s.chain }.goto t (.wakeTest ip))
  | wakeTest : Step s t (.wakeTest ip)
      (s.goto t (if s.hashLock<0 then .wake ip else .dropArg ip))
  | wake : Step s t (.wake ip) ((s.wakeup .hashLock).goto t (.dropArg ip))
  | dropCas : Step s t (.dropCas ip v) ((s.compareAndSwap v 0).goto t (.bread ip))
  | vinit : Step s t (.vinit ip)
      ((s.setInode ip { s.inode ip with owner := none }).goto t (.vnodeCreate ip))
  | vnodeCreate : Step s t (.vnodeCreate ip)
      ((s.setInode ip { s.inode ip with vnode := true, users := [t] }).goto t (.relock ip true))
  | finish : (s.inode ip).owner=none → Step s t (.relock ip true) (s.vgetFinish t ip)
  | relock : Step s t (.relock ip false)
      ((s.setInode ip { s.inode ip with owner := some t }).goto t (.irelse ip))
  | irelse : Step s t (.irelse ip) ((s.hashRemove ip).goto t (.irelLoop ip))
  | irelNotify : (s.inode ip).initWait=true → Step s t (.irelLoop ip)
      ((s.setInode ip { s.inode ip with initWait := false, owner := none }).goto t (.irelWake ip))
  | irelLoop : 0<(s.inode ip).refct → Step s t (.irelLoop ip)
      ((s.setInode ip { s.inode ip with
        refct := (s.inode ip).refct+1
        owner := none }).goto t (.irelSleep ip))
  | irelLast : ¬0<(s.inode ip).refct → Step s t (.irelLoop ip)
      ((s.setInode ip { s.inode ip with owner := none }).goto t (.irelFree ip))
  | irelWake : Step s t (.irelWake ip) ((s.wakeup (.flag ip)).goto t (.irelRelock ip))
  | irelRelock : Step s t (.irelRelock ip)
      ((s.setInode ip { s.inode ip with owner := some t }).goto t (.irelLoop ip))
  | irelSleep : Step s t (.irelSleep ip)
      ((s.setInode ip { s.inode ip with
        refct := (s.inode ip).refct-1
        owner := some t }).goto t (.irelLoop ip))
  | irelFree : Step s t (.irelFree ip)
      ((s.setInode ip { s.inode ip with freed := true }).goto t (.done none))
  | reclaim : Step s t (.reclaim ip)
      ((s.setInode ip { s.inode ip with owner := some t }).goto t (.reclaimRemove ip))
  | reclaimRelock : Step s t (.reclaimRelock ip)
      ((s.setInode ip { s.inode ip with owner := some t }).goto t (.reclaimRemove ip))
  | reclaimRemove : Step s t (.reclaimRemove ip)
      ((s.hashRemove ip).goto t (.reclaimLoop ip))
  | reclaimLoop : Step s t (.reclaimLoop ip)
      ((s.setInode ip { s.inode ip with
        refct := (s.inode ip).refct+1
        owner := none }).goto t (.reclaimSleep ip))
  | reclaimLast : ¬0<(s.inode ip).refct → Step s t (.reclaimLoop ip)
      ((s.setInode ip { s.inode ip with owner := none }).goto t (.reclaimFree ip))
  | reclaimSleep : Step s t (.reclaimSleep ip)
      ((s.setInode ip { s.inode ip with
        refct := (s.inode ip).refct-1
        owner := some t }).goto t (.reclaimLoop ip))
  | reclaimFree : Step s t (.reclaimFree ip)
      ((s.setInode ip { s.inode ip with freed := true }).goto t (.gone none))

omit [DecidableEq τ] in
theorem ixlock_eq_some {s k s' : State τ} {ip : ℕ} (h : s.ixlock ip k=some s') :
    (s.inode ip).owner=none ∧ k=s' := by
  simpa [ixlock] using h

theorem body_step {s s' : State τ} {t : τ} {e : Env} (h : s.body t e=some s') :
    s.Step t (s.pc t) s' := by
  unfold body at h
  generalize s.pc t=p at h ⊢
  cases p with
  | start | done r | gone r | initSleep ip | lockSleep => cases h
  | hashGet =>
    dsimp only at h
    split at h
    case h_1 hc => exact Option.some.inj h ▸ .pick hc
    case h_2 hc => exact Option.some.inj h ▸ .move (.unhashed hc)
  | getwithvid ip =>
    dsimp only at h
    split at h
    · exact Option.some.inj h ▸ .getwithvid
    case h_2 hd => exact Option.some.inj h ▸ .move (.stale hd)
    · exact Option.some.inj h ▸ .move .refused
    · cases h
  | lockTest =>
    obtain rfl := Option.some.inj h
    split
    case isTrue h0 => exact .move (.free h0)
    case isFalse h0 => exact .move (.busy h0)
  | lockWhile =>
    obtain rfl := Option.some.inj h
    split
    case isTrue h0 => exact .move (.again h0)
    case isFalse h0 => exact .move (.wait h0)
  | bread ip =>
    cases e with
    | ok => exact Option.some.inj h ▸ .move .bread
    | error => exact Option.some.inj h ▸ .move .breadFailed
    | _ => cases h
  | vinit ip =>
    cases e with
    | ok => exact Option.some.inj h ▸ .vinit
    | error => exact Option.some.inj h ▸ .move .vinitFailed
    | _ => cases h
  | vnodeCreate ip =>
    cases e with
    | ok => exact Option.some.inj h ▸ .vnodeCreate
    | error => exact Option.some.inj h ▸ .move .createFailed
    | _ => cases h
  | relock ip made =>
    obtain ⟨ho,rfl⟩ := ixlock_eq_some h
    cases made with
    | true => exact .finish ho
    | false => exact .relock
  | irelLoop ip =>
    dsimp only at h
    split at h
    case isTrue hw => exact Option.some.inj h ▸ .irelNotify hw
    case isFalse =>
      split at h
      case isTrue hc => exact Option.some.inj h ▸ .irelLoop hc
      case isFalse hc => exact Option.some.inj h ▸ .irelLast hc
  | reclaim ip =>
    obtain ⟨-,rfl⟩ := ixlock_eq_some h
    split
    · exact .move .lazymod
    · exact .reclaim
  | reclaimLoop ip =>
    dsimp only at h
    split at h
    · exact Option.some.inj h ▸ .reclaimLoop
    case isFalse hc => exact Option.some.inj h ▸ .reclaimLast hc
  | lockMsleep => exact Option.some.inj h ▸ .lockMsleep
  | wakeTest ip => exact Option.some.inj h ▸ .wakeTest
  | ixlock ip | initWoken ip | irelRelock ip | irelSleep ip | reclaimRelock ip | reclaimSleep ip =>
    obtain ⟨-,rfl⟩ := ixlock_eq_some h
    constructor
  | markArg | takeArg | dropArg ip | reclaimUpdate ip =>
    obtain rfl := Option.some.inj h
    exact .move (by constructor)
  | _ =>
    obtain rfl := Option.some.inj h
    constructor

/-- What an action can do. -/
inductive Taken (s : State τ) : Act τ → State τ → Prop
  | call : s.pc u=.start → Taken s (.call u) (s.goto u .hashGet)
  | putNone : s.pc u=.done none → Taken s (.put u) (s.goto u (.gone none))
  | put : s.pc u=.done (some ip) → Taken s (.put u) ((s.setInode ip { s.inode ip with
      users := (s.inode ip).users.erase u }).goto u (.gone (some ip)))
  | reclaim : s.pc u=.start → ip < s.fresh → (s.inode ip).vnode=true → (s.inode ip).users=[] →
      (s.inode ip).dead=false → Taken s (.reclaim u ip)
        ((s.setInode ip { s.inode ip with dead := true }).goto u (.reclaim ip))
  | fault : (s.pc u).touches=some ip → (s.inode ip).freed=true →
      Taken s (.run u e) { s with fault := true }
  | step : s.Step u (s.pc u) s' → Taken s (.run u e) s'

theorem next_taken {s s' : State τ} {x : Act τ} (h : next x s=some s') : s.Taken x s' := by
  unfold next at h
  split at h
  · cases h
  cases x with
  | call t =>
    simp only [Option.ite_none_right_eq_some,Option.some.injEq] at h
    exact h.2 ▸ .call h.1
  | put t =>
    dsimp only at h
    split at h
    case h_1 hp => exact Option.some.inj h ▸ .putNone hp
    case h_2 ip hp => exact Option.some.inj h ▸ .put hp
    case h_3 => cases h
  | reclaim t ip =>
    simp only [Option.ite_none_right_eq_some,Option.some.injEq] at h
    obtain ⟨⟨hp,hlt,hv,hu,hd⟩,rfl⟩ := h
    exact .reclaim hp hlt hv hu hd
  | run t e =>
    dsimp only [run] at h
    split at h
    · exact .step (body_step h)
    case h_2 ip ht =>
      split at h
      case isTrue hf => exact Option.some.inj h ▸ .fault ht hf
      case isFalse => exact .step (body_step h)

section Fields

attribute [simps chain fresh inode hashLock fault] goto wakeup

attribute [simps pc chain fresh hashLock fault] setInode

variable (s : State τ) (t u : τ) (p : Pc) (ip : ℕ) (i : Inode τ) (c : Chan) (v w : ℤ)

@[simp] theorem goto_self : (s.goto t p).pc t=p := Function.update_self ..

@[simp] theorem goto_of_ne (h : u≠t) : (s.goto t p).pc u=s.pc u := Function.update_of_ne h ..

omit [DecidableEq τ] in
@[simp] theorem setInode_self : (s.setInode ip i).inode ip=i := Function.update_self ..

omit [DecidableEq τ] in
@[simp] theorem setInode_of_ne (jp : ℕ) (h : jp≠ip) : (s.setInode ip i).inode jp=s.inode jp :=
  Function.update_of_ne h ..

omit [DecidableEq τ] in
theorem wakeup_pc : (s.wakeup c).pc u=s.pc u ∨ (s.wakeup c).pc u=(s.pc u).woken := by
  simp only [wakeup]
  split
  · exact .inr rfl
  · exact .inl rfl

omit [DecidableEq τ] in
@[simp] theorem compareAndSwap_frame : (s.compareAndSwap v w).pc=s.pc ∧
    (s.compareAndSwap v w).chain=s.chain ∧ (s.compareAndSwap v w).fresh=s.fresh ∧
    (s.compareAndSwap v w).inode=s.inode ∧ (s.compareAndSwap v w).fault=s.fault := by
  unfold compareAndSwap
  split <;> simp

omit [DecidableEq τ] in
@[simp] theorem hashRemove_frame : (s.hashRemove ip).pc=s.pc ∧ (s.hashRemove ip).fresh=s.fresh ∧
    (s.hashRemove ip).hashLock=s.hashLock ∧ (s.hashRemove ip).fault=s.fault := by
  unfold hashRemove
  split <;> exact ⟨rfl,rfl,rfl,rfl⟩

end Fields

end State

/-- The calls for one inode start with no in-core inode of that number. -/
def vgetMachine [DecidableEq τ] : Machine (State τ) (Act τ) where
  init s := s.hashLock=0 ∧ s.chain=[] ∧ s.fresh=0 ∧ (∀ t,s.pc t=.start) ∧ s.fault=false
  next := State.next

def vgetStart : State τ where
  hashLock := 0
  chain := []
  inode _ := ⟨false,false,false,0,none,false,false,[],false⟩
  fresh := 0
  pc _ := .start
  fault := false

theorem vgetStart_init [DecidableEq τ] : (vgetMachine τ).init (vgetStart τ) :=
  ⟨rfl,rfl,rfl,fun _ => rfl,rfl⟩

end Ext2fsX.Vget
