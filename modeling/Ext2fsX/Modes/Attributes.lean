import Mathlib.Data.Nat.Notation

namespace Ext2fsX.Modes

/-- The fields of an inode that writes and attribute changes read or write. -/
structure File where
  mode : UInt16
  uid : UInt32
  gid : UInt32
  flags : UInt32
  size : ℕ

inductive Vtype where
  | reg
  | lnk
  | dir
  | other
deriving DecidableEq

/-- The block size, the type, whether its pages are in the unified cache, and
`MNT_IGNORE_OWNERSHIP`. -/
structure Vnode where
  blocksize : ℕ
  pos : 0<blocksize
  vtype : Vtype
  ubc : Bool
  ignoreOwnership : Bool

inductive Errno where
  | eperm
  | eisdir
  | other (n : ℕ)

structure Uio where
  offset : ℕ
  resid : ℕ

structure Ioflag where
  append : Bool
  sync : Bool
  unit : Bool

/-- To the `k`-th `ext2_balloc`, the bytes missing in its buffer, the `k`-th `uiomove` (which moves
all, or fails after some bytes), `cluster_write` (bytes and error), `ext2_truncate` and
`ext2_update`. -/
structure Answers where
  balloc : ℕ → Option Errno
  bufResid : ℕ → ℕ
  uiomove : ℕ → Option (ℕ × Errno)
  cluster : ℕ × Option Errno
  truncate : Option Errno
  update : Option Errno

def vfsContextSuser (uid : UInt32) : ℕ := if uid=0 then 0 else 1

def setidBits : UInt16 := 0xC00

def File.dropSetid (f : File) : File := { f with mode := f.mode &&& ~~~setidBits }

structure Alloc where
  rsd : ℕ
  localOffset : ℕ
  size : ℕ
  error : Option Errno

variable (v : Vnode) (ans : Answers)

/-- Every round takes a byte at least, so `n` is the bytes left at first. -/
def allocLoop : ℕ → ℕ → Alloc → Alloc
  | 0,_,a => a
  | n+1,k,a =>
    if a.rsd=0 then a
    else
      let xfersize := min (v.blocksize-a.localOffset%v.blocksize) a.rsd
      match ans.balloc k with
      | some e => { a with error := some e }
      | none =>
        let local' := a.localOffset+xfersize
        allocLoop n (k+1) ⟨a.rsd-xfersize,local',max a.size local',none⟩

def writeCluster (f : File) (u : Uio) : (File × Uio) × Option Errno :=
  let a := allocLoop v ans u.resid 0 ⟨u.resid,u.offset,f.size,none⟩
  -- what could not be allocated is taken off the request
  let saved := if a.error.isSome then a.rsd else 0
  let moved := min ans.cluster.1 (u.resid-saved)
  let offset := u.offset+moved
  let size := if f.size<offset then offset else a.size
  (({ f with size },⟨offset,u.resid-saved-moved+saved⟩),ans.cluster.2.or a.error)

def writeBuffers : ℕ → ℕ → File × Uio → (File × Uio) × Option Errno
  | 0,_,x => (x,none)
  | n+1,k,(f,u) =>
    if u.resid=0 then ((f,u),none)
    else
      let xfersize := min (v.blocksize-u.offset%v.blocksize) u.resid
      match ans.balloc k with
      | some e => ((f,u),some e)
      | none =>
        let f := { f with size := max f.size (u.offset+xfersize) }
        let xfersize := min xfersize (v.blocksize-ans.bufResid k)
        if xfersize=0 then ((f,u),none)
        else
          match ans.uiomove k with
          | some (m,e) =>
            let moved := min m xfersize
            ((f,⟨u.offset+moved,u.resid-moved⟩),some e)
          | none =>
            writeBuffers n (k+1) (f,⟨u.offset+xfersize,u.resid-xfersize⟩)

structure Outcome where
  file : File
  uio : Uio
  error : Option Errno
  stored : ℕ

def writeBody (uid : UInt32) (io : Ioflag) (f : File) (u : Uio) :
    Outcome :=
  let x := if v.ubc then writeCluster v ans f u else writeBuffers v ans u.resid 0 (f,u)
  let f' := x.1.1
  let u' := x.1.2
  let f' := if u'.resid<u.resid ∧ vfsContextSuser uid=0 then f'.dropSetid else f'
  let stored := u.resid-u'.resid
  match x.2 with
  | some e =>
    if io.unit then
      let size := if ans.truncate=none then f.size else f'.size
      ⟨{ f' with size },⟨u'.offset-stored,u.resid⟩,some e,stored⟩
    else ⟨f',u',some e,stored⟩
  | none => ⟨f',u',if u'.resid<u.resid ∧ io.sync then ans.update else none,stored⟩

def writeInternal (uid : UInt32) (io : Ioflag) (f : File) (u : Uio) :
    Option Outcome :=
  if u.resid=0 then some ⟨f,u,none,0⟩
  else
    match v.vtype with
    | .reg =>
      let u := if io.append then { u with offset := f.size } else u
      -- `EXT2_APPEND`, compared with the flags of the system
      if f.flags &&& 0x20≠0 ∧ u.offset≠f.size then some ⟨f,u,some .eperm,0⟩
      else some (writeBody v ans uid io f u)
    | .lnk => some (writeBody v ans uid io f u)
    | .dir => if io.sync then some (writeBody v ans uid io f u) else none
    | .other => none

def vnoval : UInt32 := 0xFFFFFFFF

def chown (caller : UInt32) (uid gid : UInt32) (f : File) : File :=
  if v.ignoreOwnership ∧ caller≠0 then f
  else
    let uid := if uid=vnoval then f.uid else uid
    let gid := if gid=vnoval then f.gid else gid
    let f' := { f with uid, gid }
    if (f.uid≠uid ∨ f.gid≠gid) ∧ caller=0 then f'.dropSetid else f'

def chmod (caller : UInt32) (mode : UInt16) (f : File) : File :=
  if v.ignoreOwnership ∧ caller≠0 then f
  else { f with mode := (f.mode &&& ~~~0xFFF) ||| (mode &&& 0xFFF) }

/-- The attributes that are active in a request; times only by whether they are. -/
structure Attr where
  flags : Option UInt32
  uid : Option UInt32
  gid : Option UInt32
  dataSize : Option ℕ
  times : Bool
  mode : Option UInt16

def Attr.nuid (a : Attr) : UInt32 := a.uid.getD vnoval

def Attr.ngid (a : Attr) : UInt32 := a.gid.getD vnoval

def Attr.applyFlags (a : Attr) (f : File) : File := { f with flags := a.flags.getD f.flags }

def File.locked (f : File) : Bool := decide (f.flags &&& 0x60006≠0)

def setRest (caller : UInt32) (a : Attr) (f : File) :
    File × Option Errno :=
  let setMode (f : File) : File × Option Errno :=
    match a.mode with
    | some m => (chmod v caller m f,none)
    | none => (f,none)
  let setTimes (f : File) : File × Option Errno :=
    match a.times,ans.update with
    | true,some e => (f,some e)
    | _,_ => setMode f
  match a.dataSize with
  | none => setTimes f
  | some n =>
    if v.vtype=.dir then (f,some .eisdir)
    else
      match ans.truncate with
      | some e => (f,some e)
      | none => setTimes { f with size := n }

def setattr (caller : UInt32) (a : Attr) (f : File) :
    File × Option Errno :=
  let f := a.applyFlags f
  if f.locked then (f,some .eperm)
  else
    let f := if a.nuid≠vnoval ∨ a.ngid≠vnoval then chown v caller a.nuid a.ngid f else f
    setRest v ans caller a f

inductive Request where
  | write (uid : UInt32) (io : Ioflag) (u : Uio)
  | setattr (uid : UInt32) (a : Attr)

def Request.caller : Request → UInt32
  | write uid _ _ => uid
  | setattr uid _ => uid

/-- The file after a request and whether the request stored a byte or changed the owner. -/
def Request.run (f : File) : Request → Option (File × Bool)
  | write uid io u => (writeInternal v ans uid io f u).map fun o => (o.file,decide (0<o.stored))
  | setattr uid a =>
    let f' := (Modes.setattr v ans uid a f).1
    some (f',decide (f'.uid≠f.uid ∨ f'.gid≠f.gid))

end Ext2fsX.Modes
