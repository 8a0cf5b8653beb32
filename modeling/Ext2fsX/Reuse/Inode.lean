import Ext2fsX.Framework.Bytes
import Mathlib.Algebra.Ring.Nat
import Mathlib.Data.Int.Notation

namespace Ext2fsX.Reuse

open Framework

/-- `struct ext2_inode`, the 128 bytes of an inode on disk. -/
@[ext] structure Slot where
  mode : UInt16
  uid : UInt16
  size : UInt32
  atime : UInt32
  ctime : UInt32
  mtime : UInt32
  dtime : UInt32
  gid : UInt16
  linksCount : UInt16
  blocks : UInt32
  flags : UInt32
  osd1 : UInt32
  block : Vector UInt32 15
  generation : UInt32
  fileAcl : UInt32
  dirAcl : UInt32
  faddr : UInt32
  frag : UInt8
  fsize : UInt8
  pad1 : UInt16
  uidHigh : UInt16
  gidHigh : UInt16
  reserved2 : UInt32
deriving DecidableEq

instance block_neZero : NeZero 15 := ⟨by decide⟩

/-- A write to `i_db[0]`. -/
abbrev setFirst (v : Vector UInt32 15) (b : UInt32) : Vector UInt32 15 := v.set 0 b (by decide)

def Slot.bytes (s : Slot) : List UInt8 :=
  let w (v : UInt16) := Bytes.enc16 v.toNat
  let l (v : UInt32) := Bytes.enc32 v.toNat
  w s.mode++(w s.uid++(l s.size++(l s.atime++(l s.ctime++(l s.mtime++(l s.dtime++(w s.gid++
    (w s.linksCount++(l s.blocks++(l s.flags++(l s.osd1++(s.block.toList.flatMap l++
    (l s.generation++(l s.fileAcl++(l s.dirAcl++(l s.faddr++([s.frag,s.fsize]++(w s.pad1++
    (w s.uidHigh++(w s.gidHigh++l s.reserved2))))))))))))))))))))

/-- The bits of `i_flag` that `ext2_update` reads and writes. -/
structure Flag where
  access : Bool
  change : Bool
  update : Bool
  modified : Bool
  lazymod : Bool

/-- What a write may change: size, blocks and the allocator's hints. `i_db` and `i_ib` are one
array. -/
@[ext] structure Contents where
  size : UInt64
  blocks : UInt32
  block : Vector UInt32 15
  nextAllocBlock : UInt32
  nextAllocGoal : UInt32
  preallocBlock : UInt32
  preallocCount : UInt32

@[ext] structure Inode where
  mode : UInt16
  nlink : UInt16
  contents : Contents
  atime : UInt32
  atimensec : UInt32
  mtime : UInt32
  mtimensec : UInt32
  ctime : UInt32
  ctimensec : UInt32
  btime : UInt32
  btimensec : UInt32
  flags : UInt32
  gen : UInt32
  uid : UInt32
  gid : UInt32
  e2flags : UInt32
  modrev : UInt64
  flag : Flag

structure Time where
  sec : UInt32
  nsec : UInt32

/-- The credentials, the parent, the clock, `random() / 2 + 1`, and what the write of a name or of a
first block does to the contents. -/
structure Env where
  noUid32 : Bool
  blocksize : UInt64
  uid : UInt32
  rgid : UInt32
  parentUid : UInt32
  parentGid : UInt32
  isgroupmember : Bool
  suser : Bool
  whiteout : Bool
  uptime : UInt64
  time : ℕ → Time
  random : ℕ → UInt32
  write : Contents → Contents

def isReg (mode : UInt16) : Bool := mode &&& 0xF000==0x8000

def isDir (mode : UInt16) : Bool := mode &&& 0xF000==0x4000

def isLnk (mode : UInt16) : Bool := mode &&& 0xF000==0xA000

def isDev (mode : UInt16) : Bool := mode &&& 0xF000==0x2000 || mode &&& 0xF000==0x6000

def immutableFl : UInt32 := 0x10

def appendFl : UInt32 := 0x20

def noatimeFl : UInt32 := 0x80

def sysAppend : UInt32 := 0x40004

def sysImmutable : UInt32 := 0x20002

def ufOpaque : UInt32 := 0x8

variable (env : Env)

/-- `ext2_ei2i` into an inode of zeros. -/
def ei2i (ei : Slot) : Inode where
  nlink := ei.linksCount
  mode := if ei.linksCount≠0 then ei.mode else 0
  contents :=
    { size := if isReg (if ei.linksCount≠0 then ei.mode else 0)
        then ei.size.toUInt64 ||| (ei.dirAcl.toUInt64 <<< 32) else ei.size.toUInt64
      blocks := ei.blocks
      block := ei.block
      nextAllocBlock := 0
      nextAllocGoal := 0
      preallocBlock := 0
      preallocCount := 0 }
  atime := ei.atime
  atimensec := 0
  mtime := ei.mtime
  mtimensec := 0
  ctime := ei.ctime
  ctimensec := 0
  btime := 0
  btimensec := 0
  flags := (if ei.flags &&& appendFl≠0 then sysAppend else 0) |||
    (if ei.flags &&& immutableFl≠0 then sysImmutable else 0)
  gen := ei.generation
  uid := if env.noUid32 then ei.uid.toUInt32
    else ei.uid.toUInt32 ||| (ei.uidHigh.toUInt32 <<< 16)
  gid := if env.noUid32 then ei.gid.toUInt32
    else ei.gid.toUInt32 ||| (ei.gidHigh.toUInt32 <<< 16)
  e2flags := ei.flags
  modrev := env.uptime
  flag := ⟨false,false,false,false,false⟩

def usedBlocks (c : Contents) : ℤ :=
  (((c.size+env.blocksize-1)/env.blocksize).toNat : ℤ).bmod 4294967296

def clearUnused (c : Contents) : Contents :=
  { c with block := Vector.ofFn (fun i : Fin 15 =>
      if usedBlocks env c ≤ i.val ∧ i.val<12 then 0 else c.block.get i) }

/-- `ext2_vget_internal` with `EVALLOC_CREATE` of an inode that is not in core. -/
def vget (createmode : UInt16) (ei : Slot) : Inode :=
  let ip := ei2i env ei
  let ip :=
    if isDir ip.mode || isReg ip.mode then { ip with contents := clearUnused env ip.contents }
    else if createmode≠0 then { ip with mode := createmode, uid := env.uid, gid := env.rgid }
    else ip
  if ip.gen=0 then
    { ip with gen := env.random 0, flag := { ip.flag with modified := true } }
  else ip

/-- `ext2_valloc` after `EXT2_VGET`. -/
def vallocBody (ip : Inode) : Inode :=
  { ip with
    mode := 0
    contents := { ip.contents with size := 0, blocks := 0, block := Vector.replicate 15 0 }
    flags := 0
    gen := if ip.gen=0 ∨ ip.gen+1=0 then env.random 1 else ip.gen+1
    btime := (env.time 0).sec
    btimensec := (env.time 0).nsec }

def valloc (mode : UInt16) (ei : Slot) : Inode := vallocBody env (vget env mode ei)

/-- `ext2_itimes`; `dev` is whether the vnode is a device. -/
def itimes (now : Time) (dev : Bool) (ip : Inode) : Inode :=
  let access := ip.flag.access && (ip.e2flags &&& noatimeFl==0)
  if !access && !ip.flag.change && !ip.flag.update then
    { ip with flag := { ip.flag with access := false } }
  else
    { ip with
      atime := if access then now.sec else ip.atime
      atimensec := if access then now.nsec else ip.atimensec
      mtime := if ip.flag.update then now.sec else ip.mtime
      mtimensec := if ip.flag.update then now.nsec else ip.mtimensec
      modrev := if ip.flag.update then ip.modrev+1 else ip.modrev
      ctime := if ip.flag.change then now.sec else ip.ctime
      ctimensec := if ip.flag.change then now.nsec else ip.ctimensec
      flag := ⟨false,false,false,ip.flag.modified || !dev,ip.flag.lazymod || dev⟩ }

/-- What `ext2_itimes` leaves as it is. -/
structure Inode.Kept (x y : Inode) : Prop where
  mode : y.mode=x.mode
  nlink : y.nlink=x.nlink
  uid : y.uid=x.uid
  gid : y.gid=x.gid
  gen : y.gen=x.gen
  flags : y.flags=x.flags
  e2flags : y.e2flags=x.e2flags
  contents : y.contents=x.contents

theorem itimes_kept (now : Time) (dev : Bool) (ip : Inode) : ip.Kept (itimes now dev ip) := by
  unfold itimes
  dsimp only
  split <;> constructor <;> rfl

def diskFlags (ip : Inode) : UInt32 :=
  let f := if ip.flags &&& sysAppend≠0 then ip.e2flags ||| appendFl else ip.e2flags &&& ~~~appendFl
  if ip.flags &&& sysImmutable≠0 then f ||| immutableFl else f &&& ~~~immutableFl

def i2ei (ip : Inode) (ei : Slot) : Slot :=
  let dtime := if ip.nlink≠0 then 0 else ip.mtime
  let high (v : UInt32) : UInt16 :=
    if env.noUid32 ∨ dtime≠0 then 0 else (v >>> 16).toUInt16
  let low (v : UInt32) : UInt16 :=
    if env.noUid32 ∧ 65535<v then 65534 else v.toUInt16
  { ei with
    mode := ip.mode
    linksCount := ip.nlink
    dtime := dtime
    size := ip.contents.size.toUInt32
    atime := ip.atime
    mtime := ip.mtime
    ctime := ip.ctime
    flags := diskFlags ip
    blocks := ip.contents.blocks
    generation := ip.gen
    uid := low ip.uid
    gid := low ip.gid
    uidHigh := high ip.uid
    gidHigh := high ip.gid
    dirAcl := if isReg ip.mode then (ip.contents.size >>> 32).toUInt32 else ei.dirAcl
    block := ip.contents.block }

def update (now : Time) (dev : Bool) (x : Inode × Slot) : Inode × Slot :=
  let ip := itimes now dev x.1
  if ip.flag.modified then
    ({ ip with
      e2flags := diskFlags ip
      flag := { ip.flag with modified := false, lazymod := false } },i2ei env ip x.2)
  else (ip,x.2)

/-- The fields that `ext2_makeinode` and `ext2_mkdir` set before the first `ext2_update`. -/
def setup (mode : UInt16) (nlink : UInt16) (uid : UInt32) (ip : Inode) : Inode :=
  { ip with
    gid := env.parentGid
    uid := uid
    flag := { ip.flag with access := true, change := true, update := true }
    mode := mode
    nlink := nlink
    flags := if env.whiteout then ip.flags ||| ufOpaque else ip.flags }

def typed (mode : UInt16) : UInt16 := if mode &&& 0xF000=0 then mode ||| 0x8000 else mode

def dropSgid (mode : UInt16) : UInt16 :=
  if mode &&& 0x400≠0 ∧ env.isgroupmember=false ∧ env.suser=true then mode &&& ~~~0x400 else mode

def makeinode (mode : UInt16) (ei : Slot) : Inode × Slot :=
  update env (env.time 1) (isDev (typed mode))
    (setup env (dropSgid env (typed mode)) 1
      (if isLnk (typed mode) then env.parentUid else env.uid) (valloc env (typed mode) ei),ei)

def write (ip : Inode) : Inode :=
  { ip with
    contents := env.write ip.contents
    mode := if env.suser then ip.mode else ip.mode &&& ~~~0xC00
    flag := { ip.flag with change := true, update := true } }

def shortlink (target : List UInt8) : Vector UInt32 15 :=
  let byte (i : ℕ) : UInt32 := (target.getD i 0).toUInt32
  Vector.ofFn (fun i : Fin 15 => byte (4*i.val) ||| (byte (4*i.val+1) <<< 8) |||
    (byte (4*i.val+2) <<< 16) ||| (byte (4*i.val+3) <<< 24))

inductive Request where
  | create (mode : UInt16)
  | mkdir (mode : UInt16)
  | symlink (mode : UInt16) (target : List UInt8)
  | mknod (mode : UInt16) (rdev : Option UInt32)

def Request.mode : Request → UInt16
  | create mode => typed mode
  | mkdir mode => mode &&& 0x1FF ||| 0x4000
  | symlink mode _ => typed (0xA000 ||| mode)
  | mknod mode _ => typed mode

/-- What `ext2_mkdir`, `ext2_symlink` and `ext2_mknod` do to the inode after its first
`ext2_update`. -/
def Request.finish : Request → Inode × Slot → Inode × Slot
  | create _,x => x
  | mkdir mode,x =>
    let y := update env (env.time 2) (isDev (mkdir mode).mode) (write env x.1,x.2)
    ({ y.1 with
      contents := { y.1.contents with size := env.blocksize }
      flag := { y.1.flag with change := true } },y.2)
  | symlink _ target,x =>
    if target.length<60 then
      ({ x.1 with
        contents := { x.1.contents with
          block := shortlink target
          size := .ofNat target.length }
        flag := { x.1.flag with change := true, update := true } },x.2)
    else (write env x.1,x.2)
  | mknod _ rdev,x =>
    ({ x.1 with
      contents := { x.1.contents with
        block := setFirst x.1.contents.block (rdev.getD (x.1.contents.block.get 0)) }
      flag := { x.1.flag with access := true, change := true, update := true } },x.2)

def Request.make : Request → Slot → Inode × Slot
  | create mode,ei => makeinode env mode ei
  | mkdir mode,ei =>
    update env (env.time 1) (isDev (mkdir mode).mode)
      (setup env (mkdir mode).mode 2 env.uid (valloc env (mkdir mode).mode ei),ei)
  | symlink mode _,ei => makeinode env (0xA000 ||| mode) ei
  | mknod mode _,ei => makeinode env mode ei

def Request.run (q : Request) (ei : Slot) : Inode × Slot :=
  q.finish env (q.make env ei)

def Request.flushed (q : Request) (ei : Slot) : Slot :=
  (update env (env.time 3) (isDev q.mode) (q.run env ei)).2

end Ext2fsX.Reuse
