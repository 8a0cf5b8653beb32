import Ext2fsX.Balloc.Zones
import Ext2fsX.Ialloc.Valloc

namespace Ext2fsX.Mounted

open Balloc (Alloc TailSet)
open Ialloc (Inodes)

/-- The geometry of a mounted filesystem for both allocators. -/
structure Layout where
  blocks : Balloc.Geometry
  inodes : Ialloc.Geometry
  groups_eq : inodes.groupsCount=blocks.groupsCount
  desc_eq : inodes.descPerBlock=blocks.descPerBlock
  desc_pos : 0<blocks.descPerBlock

namespace Layout

variable (l : Layout)

def descBlock (i : ℕ) : ℕ := i/l.blocks.descPerBlock

/-- `e2fs_dbpg`, the number of descriptor blocks. -/
def dbpg : ℕ := (l.blocks.groupsCount+l.blocks.descPerBlock-1)/l.blocks.descPerBlock

theorem descBlock_lt (i : ℕ) (h : i<l.blocks.groupsCount) : l.descBlock i<l.dbpg := by
  unfold descBlock dbpg
  rw [Nat.div_lt_iff_lt_mul l.desc_pos]
  have hm := Nat.div_add_mod (l.blocks.groupsCount+l.blocks.descPerBlock-1) l.blocks.descPerBlock
  have hr := Nat.mod_lt (l.blocks.groupsCount+l.blocks.descPerBlock-1) l.desc_pos
  rw [Nat.mul_comm] at hm
  omega

end Layout

/-- The counts of a group descriptor; the addresses in it never change. -/
@[ext] structure Desc where
  freeBlocks : ℕ
  freeInodes : ℕ
  usedDirs : ℕ
  deriving DecidableEq

/-- Bitmaps, descriptors, the counts of the superblock and the dirty marks. -/
structure Volume where
  blockBitmap : ℕ → ℕ → Bool
  inodeBitmap : ℕ → ℕ → Bool
  desc : ℕ → Desc
  sFreeBlocks : ℕ
  sFreeInodes : ℕ
  dircount : ℤ
  descDirty : ℕ → Bool
  sDirt : Bool

namespace Volume

variable (v : Volume)

def alloc : Alloc where
  bitmap := v.blockBitmap
  bgFree i := (v.desc i).freeBlocks
  sFree := v.sFreeBlocks
  descDirty := v.descDirty
  sDirt := v.sDirt

def setAlloc (a : Alloc) : Volume :=
  { v with
    blockBitmap := a.bitmap
    desc := fun i => { v.desc i with freeBlocks := a.bgFree i }
    sFreeBlocks := a.sFree
    descDirty := a.descDirty
    sDirt := a.sDirt }

def inodes : Inodes where
  bitmap := v.inodeBitmap
  bgFree i := (v.desc i).freeInodes
  bgDirs i := (v.desc i).usedDirs
  sFree := v.sFreeInodes
  dircount := v.dircount
  descDirty := v.descDirty
  sDirt := v.sDirt

def setInodes (a : Inodes) : Volume :=
  { v with
    inodeBitmap := a.bitmap
    desc := fun i => { v.desc i with freeInodes := a.bgFree i,usedDirs := a.bgDirs i }
    sFreeInodes := a.sFree
    dircount := a.dircount
    descDirty := a.descDirty
    sDirt := a.sDirt }

end Volume

/-- No result is a call that panics or comes back to `repeat:` with nothing changed. -/
def newBlock (g : Balloc.Geometry) (a : Alloc) (goal : ℕ) (pre : Bool) : Option Alloc :=
  match Balloc.attempt g a goal pre with
  | .zero b => some b
  | .block b _ _ => some b
  | .panic => none
  | .again => none

/-- `get_group_desc` panics for a parent in a group that does not exist. -/
def newInode (g : Ialloc.Geometry) (a : Inodes) (blocks : ℕ → ℕ) (dg : ℕ) (dir : Bool) :
    Option Inodes :=
  if dir=false ∧ g.groupsCount≤dg then none
  else
    match Ialloc.attempt g a blocks dg dir with
    | .zero b => some b
    | .got b _ => some b
    | .again => none

inductive Call where
  | newBlock (goal : ℕ) (pre : Bool)
  | freeBlocks (block count : ℕ)
  | newInode (dg : ℕ) (dir : Bool)
  | freeInode (nlink : ℕ) (dir : Bool) (ino : ℕ)

def Volume.call (l : Layout) (v : Volume) : Call → Option Volume
  | .newBlock goal pre => (newBlock l.blocks v.alloc goal pre).map v.setAlloc
  | .freeBlocks block count => (Balloc.freeBlocks l.blocks v.alloc block count).map v.setAlloc
  | .newInode dg dir =>
    (newInode l.inodes v.inodes (fun i => (v.desc i).freeBlocks) dg dir).map v.setInodes
  | .freeInode nlink dir ino =>
    some (v.setInodes (Ialloc.freeInode l.inodes v.inodes ⟨ino,nlink⟩ dir))

end Ext2fsX.Mounted
