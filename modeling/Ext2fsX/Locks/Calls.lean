import Ext2fsX.Framework.LockOrder

namespace Ext2fsX.Locks

open Framework
open Framework.LockProg

/-- The inode mutexes that a piece of code takes and gives up, by inode number. -/
abbrev Prog := LockProg ℕ

/-- `IXLOCK_WITH_LOCKED_INODE(ip, lip)`. -/
def lockWithLockedInode (ip lip : ℕ) : Prog Unit :=
  if lip < ip then lock ip
  else do
    unlock lip
    lock ip
    lock lip

def visit (vp : ℕ) : Prog Unit := loop (do lock vp; unlock vp)

def relock (ip : ℕ) : Prog Unit := loop (do unlock ip; lock ip)

def visitAny : Prog Unit := loop (do let m ← choose; lock m; unlock m)

/-- `ext2_blkatoff`: the block size under the lock, then the read, which maps the block. -/
def blkatoff (vp : ℕ) : Prog Unit := do
  lock vp
  unlock vp
  visit vp

def lookupi (vdp : ℕ) : Prog Unit := do
  lock vdp
  unlock vdp
  visit vdp

variable (ip dp : ℕ)

/-- The cached result of a lookup or a lookup; whether it failed. -/
def direnterLookup : Prog Bool := do
  let hit ← branch
  if hit then pure false
  else do
    unlock dp
    lookupi dp
    lockWithLockedInode dp ip
    branch

/-- No room in the directory: an index is made of it, or a block is written behind it. -/
def direnterAppend : Prog Bool := do
  let index ← branch
  unlock dp
  if index then do
    blkatoff dp
    lockWithLockedInode dp ip
    -- make_indexed_dir
    relock dp
  else do
    -- EXT2_WRITE
    visit dp
    lockWithLockedInode dp ip
  unlock dp
  branch

/-- The entry goes into free space of a block, and the directory may be cut after it. -/
def direnterCompact : Prog Bool := do
  unlock dp
  blkatoff dp
  lockWithLockedInode dp ip
  let err ← branch
  unlock dp
  if err then pure true
  else do
    visit dp
    branch

def direnterPlace : Prog Bool := do
  let full ← branch
  if full then direnterAppend ip dp else direnterCompact ip dp

def direnter : Prog Bool := do
  lockWithLockedInode dp ip
  loop (do unlock dp; lockWithLockedInode dp ip)
  let err ← direnterLookup ip dp
  if err then do
    unlock dp
    pure true
  else do
    let dx ← branch
    if dx then do
      -- ext3_dx_add_entry
      relock dp
      let bad ← branch
      if bad then direnterPlace ip dp
      else do
        unlock dp
        branch
    else direnterPlace ip dp

def brief (ip : ℕ) : Prog Unit := do
  lock ip
  unlock ip

def enter : Prog Bool := do
  lock ip
  let err ← direnter ip dp
  unlock ip
  pure err

def link (vp tdvp : ℕ) : Prog Unit := do
  lock vp
  let refused ← branch
  unlock vp
  if refused then pure ()
  else do
    -- ext2_update
    visit vp
    lock vp
    let err ← branch
    if err then unlock vp
    else do
      let _ ← direnter vp tdvp
      unlock vp

def makeinode (dvp ip : ℕ) : Prog Unit := do
  visitAny
  let err ← branch
  if err then pure ()
  else do
    brief dvp
    brief ip
    -- ext2_update
    visit ip
    let err ← branch
    let err ← if err then pure true else enter ip dvp
    if err then brief ip else pure ()

/-- The part of `ext2_mkdir` after the new inode has been set up; whether it failed. -/
def mkdirFill (dvp ip : ℕ) : Prog Bool := do
  brief dvp
  -- ext2_update of the parent
  visit dvp
  let err ← branch
  if err then pure true
  else do
    -- the write of "." and ".."
    visit ip
    let err ← branch
    let err ← if err then pure true else enter ip dvp
    if err then brief dvp else pure ()
    pure err

def mkdir (dvp ip : ℕ) : Prog Unit := do
  brief dvp
  let emlink ← branch
  if emlink then pure ()
  else do
    visitAny
    let err ← branch
    if err then pure ()
    else do
      brief ip
      visit ip
      let err ← branch
      let err ← if err then pure true else mkdirFill dvp ip
      if err then brief ip else pure ()

def rmdir (dvp vp : ℕ) : Prog Unit :=
  if dvp=vp then pure ()
  else do
    lock vp
    -- the sleep on IN_LOOK, then ext2_dirempty
    relock vp
    relock vp
    let full ← branch
    if full then unlock vp
    else do
      lockWithLockedInode dvp vp
      let refused ← branch
      unlock vp
      unlock dvp
      if refused then pure ()
      else do
        -- ext2_dirremove
        visit dvp
        let err ← branch
        if err then pure ()
        else do
          brief dvp
          brief vp
          -- ext2_truncate
          visit vp
    brief vp

def checkpath (source target : ℕ) : Prog Bool :=
  if target=source then pure true
  else do
    visitAny
    branch

structure Rename where
  fdvp : ℕ
  fvp : ℕ
  tdvp : ℕ
  tvp : Option ℕ
  isDir : Bool

namespace Rename

variable (r : Rename)

/-- `doingdirectory && newparent`. -/
def moves : Bool := r.isDir && decide (r.fdvp≠r.tdvp)

/-- The checks of an existing target; whether they refuse. -/
def target : Prog Bool :=
  match r.tvp with
  | none => pure false
  | some x => do
      brief x
      let refused ← branch
      if refused then pure true
      else do
        brief r.tdvp
        branch

/-- The new parent's link count is bumped for a directory that moves; whether that failed. -/
def bumpParent (emlink : Bool) : Prog Bool :=
  if r.moves then
    if emlink then pure true
    else do
      visit r.tdvp
      branch
  else pure false

def unbumpParent (err : Bool) : Prog Unit :=
  if err && r.moves then do
    brief r.tdvp
    visit r.tdvp
  else pure ()

/-- The target does not exist; whether it could not be entered. -/
def intoFree : Prog Bool := do
  lock r.tdvp
  lockWithLockedInode r.fvp r.tdvp
  unlock r.fvp
  let emlink ← branch
  unlock r.tdvp
  let err ← r.bumpParent emlink
  if err then pure true
  else do
    let err ← enter r.fvp r.tdvp
    r.unbumpParent err
    pure err

def dropParent : Prog Unit :=
  if r.isDir && !r.moves then brief r.tdvp else pure ()

/-- The target `x` exists; whether its entry could not be rewritten. -/
def intoUsed (x : ℕ) : Prog Bool := do
  lock r.tdvp
  lockWithLockedInode x r.tdvp
  unlock r.tdvp
  -- ext2_dirempty
  relock x
  let refused ← branch
  unlock x
  if refused then pure true
  else do
    -- ext2_dirrewrite_nolock
    visit r.tdvp
    let err ← branch
    if err then pure true
    else do
      r.dropParent
      lock x
      -- ext2_truncate of a directory
      relock x
      unlock x
      pure false

def fixDotdot : Prog Unit :=
  if r.moves then do
    brief r.fdvp
    visit r.fvp
  else pure ()

def unlinkSource : Prog Unit := do
  r.fixDotdot
  -- ext2_dirremove
  visit r.fdvp
  brief r.fvp

def checkPath : Prog Bool :=
  if r.moves then checkpath r.fvp r.tdvp else pure false

def into : Prog Bool :=
  match r.tvp with
  | none => r.intoFree
  | some x => r.intoUsed x

def move : Prog Unit := do
  -- ext2_update
  visit r.fvp
  let err ← branch
  if err then brief r.fvp
  else do
    let err ← r.checkPath
    if err then brief r.fvp
    else do
      let err ← r.into
      if err then brief r.fvp else r.unlinkSource

def run : Prog Unit := do
  let refused ← r.target
  if refused || decide (r.tvp=some r.fvp) then pure ()
  else do
    lock r.fvp
    let emlink ← branch
    if emlink then unlock r.fvp
    else do
      lockWithLockedInode r.fdvp r.fvp
      let stop ← branch
      unlock r.fdvp
      unlock r.fvp
      if stop then pure () else r.move

end Rename

/-- A call; `ip` of `mkdir` and `makeinode` is the number the new inode is given. -/
inductive Call where
  | rename (r : Rename)
  | link (vp tdvp : ℕ)
  | mkdir (dvp ip : ℕ)
  | rmdir (dvp vp : ℕ)
  | makeinode (dvp ip : ℕ)
  | direnter (ip dp : ℕ)

def Call.prog : Call → Prog Unit
  | .rename r => r.run
  | .link vp tdvp => Locks.link vp tdvp
  | .mkdir dvp ip => Locks.mkdir dvp ip
  | .rmdir dvp vp => Locks.rmdir dvp vp
  | .makeinode dvp ip => Locks.makeinode dvp ip
  | .direnter ip dp => do
      let _ ← enter ip dp
      pure ()

end Ext2fsX.Locks
