import Ext2fsX.Mount.Geometry
import Ext2fsX.Mounted.Marks

namespace Ext2fsX.Mounted

open Framework
open Mount (Superblock Env checkSbCompat isClean)

/-- `struct ext2fs` but for its two free counts. -/
structure Header extends Superblock where
  mtime : UInt32
  wtime : UInt32
  mntCount : UInt16
  maxMntCount : UInt16
  lastMounted : List UInt8
  volumeName : List UInt8
  deriving DecidableEq

structure Super where
  header : Header
  freeBlocks : ℕ
  freeInodes : ℕ
  deriving DecidableEq

structure Device where
  super : Super
  desc : ℕ → Desc
  blockBitmap : ℕ → ℕ → Bool
  inodeBitmap : ℕ → ℕ → Bool

/-- `s_es`, what the allocators use, `s_rd_only` and `s_wasvalid`. For the statements only: the
state the mount found on disk, and whether it has been read-write since. -/
structure Core where
  es : Header
  vol : Volume
  rdOnly : Bool
  wasValid : Bool
  stateFound : UInt16
  beenRw : Bool

namespace Core

/-- The superblock as `ext2_sbupdate` copies it. -/
def image (m : Core) : Super := ⟨m.es,m.vol.sFreeBlocks,m.vol.sFreeInodes⟩

/-- `ext2_sbupdate`: the marked descriptor blocks, then the superblock. -/
def sbupdate (l : Layout) (m : Core) (dev : Device) : Core × Device :=
  ({ m with vol := (m.vol.writeDescs l dev.desc).1 },
    { dev with super := m.image,desc := (m.vol.writeDescs l dev.desc).2 })

/-- The descriptors go to disk as in `Tracked.sbupdate`. -/
theorem sbupdate_tracked (l : Layout) (m : Core) (dev : Device) (changed : ℕ → Bool) :
    let s := (⟨m.vol,dev.desc,changed⟩ : Tracked).sbupdate l
    (m.sbupdate l dev).1.vol=s.vol ∧ (m.sbupdate l dev).2.desc=s.disk :=
  ⟨rfl,rfl⟩

def setState (m : Core) (state : UInt16) : Core := { m with es := { m.es with state := state } }

end Core

def valid (state : UInt16) : Bool := decide (state &&& 1≠0)

/-- The in-core superblock that `ext2_mountfs` makes of the one on disk. -/
def mountHeader (es : Header) (ronly : Bool) (time : UInt32) (path : List UInt8) : Header :=
  { es with
    state := if ronly then es.state else es.state &&& ~~~1
    mtime := time
    maxMntCount := if es.maxMntCount=0 then 20 else es.maxMntCount
    mntCount := es.mntCount+1
    lastMounted := path }

/-- Before `ext2_mountfs` first writes. `struct m_ext2fs` is not cleared: `junk` is what `s_dirt`
holds. -/
def mountCore (dev : Device) (ronly : Bool) (time : UInt32) (path : List UInt8) (junk : Bool)
    (dircount : ℕ) : Core where
  es := mountHeader dev.super.header ronly time path
  vol :=
    { blockBitmap := dev.blockBitmap
      inodeBitmap := dev.inodeBitmap
      desc := dev.desc
      sFreeBlocks := dev.super.freeBlocks
      sFreeInodes := dev.super.freeInodes
      dircount := dircount
      descDirty := fun _ => false
      sDirt := if ronly then junk else true }
  rdOnly := ronly
  wasValid := valid dev.super.header.state
  stateFound := dev.super.header.state
  beenRw := !ronly

variable (l : Layout)

def mountfs (env : Env) (time : UInt32) (path : List UInt8) (junk : Bool)
    (dev : Device) : Option (Core × Device) :=
  match Mount.mountfs env dev.super.header.toSuperblock with
  | .error _ => none
  | .ok fs =>
    let m := mountCore dev env.ronly time path junk fs.dircount
    some (if env.ronly then (m,dev) else m.sbupdate l dev)

/-- The flags of the call and how what it calls ends: `vfs_isrdonly`, `vfs_iswriteupgrade`,
`vfs_isforce`, `vfs_busy` and `ext2_flushfiles`, and whether the device is that of the mount. -/
structure Update where
  rdonly : Bool
  upgrade : Bool
  force : Bool
  busied : Bool
  flushed : Bool
  sameDev : Bool

def downgrade (m : Core) (dev : Device) : Core × Device :=
  let r := if m.wasValid then (m.setState (m.es.state ||| 1)).sbupdate l dev else (m,dev)
  ({ r.1 with rdOnly := true },r.2)

def upgrade (m : Core) (dev : Device) : Core × Device :=
  let r := (m.setState (m.es.state &&& ~~~1)).sbupdate l dev
  ({ r.1 with rdOnly := false,beenRw := true },r.2)

variable (u : Update)

def Update.downgrades (m : Core) : Bool :=
  !m.rdOnly && u.rdonly && u.busied && u.flushed

/-- An update stops in the downgrade part: `vfs_busy` or the flush fails. -/
def Update.stops (m : Core) : Bool :=
  !m.rdOnly && u.rdonly && !(u.busied && u.flushed)

/-- The part of an update after the downgrade part. -/
def updateRest (r : Core × Device) : Core × Device :=
  if !u.sameDev then r
  else if !checkSbCompat r.1.es.toSuperblock (!u.upgrade) then r
  else if r.1.rdOnly && u.upgrade then
    if !isClean r.1.es.state && !u.force then r else upgrade l r.1 r.2
  else r

def update (m : Core) (dev : Device) : Core × Device :=
  if u.stops m then (m,dev)
  else updateRest l u (if u.downgrades m then downgrade l m dev else (m,dev))

/-- Past the flush: the in-core data when it is freed, and the disk. `ULCK_BUF` writes the marked
descriptor blocks, the flush the bitmaps. -/
def unmount (m : Core) (dev : Device) : Core × Device :=
  let r :=
    if m.rdOnly then (m,dev)
    else (if m.wasValid then m.setState (m.es.state ||| 1) else m).sbupdate l dev
  let w := r.1.vol.writeDescs l r.2.desc
  ({ r.1 with vol := w.1 },
    { r.2 with
      desc := w.2
      blockBitmap := w.1.blockBitmap
      inodeBitmap := w.1.inodeBitmap })

def labelInvalChars : List UInt8 := [34,42,47,58,59,60,61,62,63,91,92,93,124]

/-- The loop of `ext2_check_label` over a name without its final zero, `n` passes left. -/
def checkLabel : ℕ → Bool → List UInt8 → Bool
  | 0,_,_ => false
  | _+1,first,[] => !first
  | n+1,first,c::cs =>
    if c<(if first then 33 else 32) ∨ c∈labelInvalChars then false else checkLabel n false cs

def setLabel (m : Core) (name : List UInt8) : Core :=
  if name≠[] ∧ checkLabel 16 true name then
    { m with
      es := { m.es with volumeName := (name++List.replicate 16 0).take 16 }
      vol := { m.vol with sDirt := true } }
  else m

/-- `freed` is what the last call had in core when it was an unmount that completed. -/
structure System where
  dev : Device
  mnt : Option Core
  panicked : Bool
  freed : Option Core

inductive Event where
  | mount (env : Env) (time : UInt32) (path : List UInt8) (junk : Bool)
  | update (u : Update)
  | call (c : Call)
  | setLabel (name : List UInt8)
  | sync (time : UInt32)
  | unmount (flushed : Bool)

namespace System

def put (s : System) (r : Core × Device) : System :=
  { s with dev := r.2,mnt := some r.1,freed := none }

def stay (s : System) : System := { s with freed := none }

/-- `ext2_sync`, its panic included. -/
def sync (l : Layout) (s : System) (m : Core) (time : UInt32) : System :=
  if m.vol.sDirt && m.rdOnly then { s with panicked := true,freed := none }
  else if m.vol.sDirt then
    s.put (({ m with
      es := { m.es with wtime := time }
      vol := { m.vol with sDirt := false } } : Core).sbupdate l s.dev)
  else s.put (m,s.dev)

/-- Only a filesystem mounted read-write is asked for blocks and inodes; a failed mount changes
nothing. -/
def next (l : Layout) (x : Event) (s : System) : Option System :=
  if s.panicked then none
  else match x,s.mnt with
  | .mount env time path junk,none =>
    match mountfs l env time path junk s.dev with
    | some r => some (s.put r)
    | none => some s.stay
  | .update u,some m => some (s.put (update l u m s.dev))
  | .call c,some m =>
    if m.rdOnly then none
    else (m.vol.call l c).map (fun w => s.put ({ m with vol := w },s.dev))
  | .setLabel name,some m => some (s.put (setLabel m name,s.dev))
  | .sync time,some m => some (s.sync l m time)
  | .unmount flushed,some m =>
    if flushed then
      some { s with
        dev := (unmount l m s.dev).2
        mnt := none
        freed := some (unmount l m s.dev).1 }
    else some (s.put (m,s.dev))
  | _,_ => none

end System

def mountMachine : Machine System Event where
  init s := s.mnt=none ∧ s.panicked=false ∧ s.freed=none
  next := System.next l

def smallLayout : Layout where
  blocks :=
    { firstDataBlock := 1
      blocksCount := 8193
      blocksPerGroup := 8192
      groupsCount := 1
      descPerBlock := 32
      itpg := 128
      preallocBlocks := 0
      blockBitmap := fun _ => 3
      inodeBitmap := fun _ => 4
      inodeTable := fun _ => 5
      first_lt := by decide
      count_lt := by decide
      bpg_pos := by decide
      bpg_dvd := by decide
      bpg_lt := by decide
      groups_eq := by decide }
  inodes :=
    { groupsCount := 1
      inodesPerGroup := 1024
      inodesCount := 1024
      descPerBlock := 32
      groups_pos := Nat.one_pos
      ipg_pos := by decide
      ipg_lt := by decide
      count_eq := by decide
      count_lt := by decide }
  groups_eq := rfl
  desc_eq := rfl
  desc_pos := by decide

def smallDevice : Device where
  super := ⟨⟨Mount.smallDisk,0,0,0,20,[],[]⟩,8060,1013⟩
  desc _ := ⟨8060,1013,2⟩
  blockBitmap _ j := decide (j<132)
  inodeBitmap _ j := decide (j<11)

def notMounted : System where
  dev := smallDevice
  mnt := none
  panicked := false
  freed := none

def toReadOnly : Update := ⟨true,false,false,true,true,true⟩

def toReadWrite : Update := ⟨false,true,false,true,true,true⟩

/-- What a call can do, one case for each way it ends. -/
inductive Step (l : Layout) (s : System) : Event → System → Prop
  | mountFails (env : Env) (time : UInt32) (path : List UInt8) (junk : Bool) (hm : s.mnt=none) :
      Step l s (.mount env time path junk) s.stay
  | mount (env : Env) (time : UInt32) (path : List UInt8) (junk : Bool) (r : Core × Device)
      (hm : s.mnt=none) (hr : mountfs l env time path junk s.dev=some r) :
      Step l s (.mount env time path junk) (s.put r)
  | update (u : Update) (m : Core) (hm : s.mnt=some m) :
      Step l s (.update u) (s.put (update l u m s.dev))
  | call (c : Call) (m : Core) (w : Volume) (hm : s.mnt=some m) (hrw : m.rdOnly=false)
      (hw : m.vol.call l c=some w) : Step l s (.call c) (s.put ({ m with vol := w },s.dev))
  | setLabel (name : List UInt8) (m : Core) (hm : s.mnt=some m) :
      Step l s (.setLabel name) (s.put (setLabel m name,s.dev))
  | sync (time : UInt32) (m : Core) (hm : s.mnt=some m) : Step l s (.sync time) (s.sync l m time)
  | flushFails (m : Core) (hm : s.mnt=some m) : Step l s (.unmount false) (s.put (m,s.dev))
  | unmount (m : Core) (hm : s.mnt=some m) :
      Step l s (.unmount true) { s with
        dev := (unmount l m s.dev).2
        mnt := none
        freed := some (unmount l m s.dev).1 }

theorem step_of_next (s s' : System) (x : Event) (h : s.next l x=some s') :
    Step l s x s' ∧ s.panicked=false := by
  unfold System.next at h
  split at h
  · cases h
  case isFalse hp =>
    refine ⟨?_,by simpa using hp⟩
    cases x with
    | mount env time path junk =>
      cases hm : s.mnt with
      | some m => simp [hm] at h
      | none =>
        cases hr : mountfs l env time path junk s.dev with
        | none =>
          simp only [hm,hr,Option.some.injEq] at h
          exact h ▸ .mountFails env time path junk hm
        | some r =>
          simp only [hm,hr,Option.some.injEq] at h
          exact h ▸ .mount env time path junk r hm hr
    | update u =>
      cases hm : s.mnt with
      | none => simp [hm] at h
      | some m =>
        simp only [hm,Option.some.injEq] at h
        exact h ▸ .update u m hm
    | call c =>
      cases hm : s.mnt with
      | none => simp [hm] at h
      | some m =>
        simp only [hm,Option.ite_none_left_eq_some,Option.map_eq_some_iff] at h
        obtain ⟨hrw,w,hw,rfl⟩ := h
        exact .call c m w hm (by simpa using hrw) hw
    | setLabel name =>
      cases hm : s.mnt with
      | none => simp [hm] at h
      | some m =>
        simp only [hm,Option.some.injEq] at h
        exact h ▸ .setLabel name m hm
    | sync time =>
      cases hm : s.mnt with
      | none => simp [hm] at h
      | some m =>
        simp only [hm,Option.some.injEq] at h
        exact h ▸ .sync time m hm
    | unmount flushed =>
      cases hm : s.mnt with
      | none => simp [hm] at h
      | some m =>
        cases flushed with
        | true =>
          simp only [hm,if_true,Option.some.injEq] at h
          exact h ▸ .unmount m hm
        | false =>
          simp only [hm,Bool.false_eq_true,if_false,Option.some.injEq] at h
          exact h ▸ .flushFails m hm

end Ext2fsX.Mounted
