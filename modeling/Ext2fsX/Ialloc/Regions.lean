import Ext2fsX.Balloc.Accounting

namespace Ext2fsX.Ialloc

open Framework
open Function (update)
open Balloc (findFirstZeroBit sub16 sub32)

/-- As the inode allocator reads it: free counts fit 16 bits, the number of inodes 32 bits. -/
structure Geometry where
  groupsCount : ℕ
  inodesPerGroup : ℕ
  inodesCount : ℕ
  descPerBlock : ℕ
  groups_pos : 0<groupsCount
  ipg_pos : 0 < inodesPerGroup
  ipg_lt : inodesPerGroup<2^16
  count_eq : inodesCount=groupsCount*inodesPerGroup
  count_lt : inodesCount<2^32

/-- What the allocator changes. -/
structure Inodes where
  bitmap : ℕ → ℕ → Bool
  bgFree : ℕ → ℕ
  bgDirs : ℕ → ℕ
  sFree : ℕ
  dircount : ℤ
  descDirty : ℕ → Bool
  sDirt : Bool

namespace Geometry

variable (g : Geometry)

def inodeAt (i j : ℕ) : ℕ := j+i*g.inodesPerGroup+1

def groupOf (ino : ℕ) : ℕ := (ino-1)/g.inodesPerGroup

def bitOf (ino : ℕ) : ℕ := (ino-1)%g.inodesPerGroup

end Geometry

def dirSearch (free blocks : ℕ → ℕ) (ave : ℤ) : ℕ → ℕ → Option ℕ → Option ℕ
  | 0,_,best => best
  | n+1,j,best =>
    dirSearch free blocks ave n (j+1)
      (if free j≠0 ∧ ave≤free j ∧ best.all (fun k => blocks k<blocks j) then some j else best)

variable (g : Geometry)

/-- The quadratic hash: the group after `i` at distance `j`, which doubles. -/
def hashSearch (free : ℕ → ℕ) : ℕ → ℕ → ℕ → Option ℕ
  | 0,_,_ => none
  | n+1,j,i =>
    if g.groupsCount≤j then none
    else
      let i := if g.groupsCount ≤ i+j then i+j-g.groupsCount else i+j
      if free i≠0 then some i else hashSearch free n (2*j) i

def linearSearch (free : ℕ → ℕ) : ℕ → ℕ → Option ℕ
  | 0,_ => none
  | n+1,i =>
    let i := if g.groupsCount ≤ i+1 then 0 else i+1
    if free i≠0 then some i else linearSearch free n i

variable (a : Inodes)

def avefreei : ℤ := ((a.sFree/g.groupsCount : ℕ) : ℤ).bmod (2^32)

/-- The group chosen and the group whose descriptor was looked up last. `dg` is the parent's group.
-/
def newInodeStart (blocks : ℕ → ℕ) (dg : ℕ) (dir : Bool) :
    Option (ℕ × ℕ) :=
  if dir then
    (dirSearch a.bgFree blocks (avefreei g a) g.groupsCount 0 none).map
      (fun i => (i,g.groupsCount-1))
  else if a.bgFree dg≠0 then some (dg,dg)
  else ((hashSearch g a.bgFree g.groupsCount 1 dg).or
    (linearSearch g a.bgFree g.groupsCount dg)).map (fun i => (i,i))

inductive Got where
  | got (a : Inodes) (ino : ℕ)
  | lost (a : Inodes)
  | corrupted
  | again

/-- After the bitmap of group `i` is read; `last` is the group whose descriptor block is marked. The
number is an `int`. -/
def newInodeFinish (dir : Bool) (i last : ℕ) : Got :=
  let j := findFirstZeroBit (a.bitmap i) 0 g.inodesPerGroup
  if j<g.inodesPerGroup then
    if a.bitmap i j then .again
    else
      let b := { a with
        bitmap := update a.bitmap i (update (a.bitmap i) j true) }
      if (g.inodeAt i j : ℤ).bmod (2^32)<11 ∨ g.inodesCount<g.inodeAt i j%2^32 then .lost b
      else .got { b with
        bgFree := update a.bgFree i (sub16 (a.bgFree i) 1)
        bgDirs := if dir then update a.bgDirs i ((a.bgDirs i+1)%2^16) else a.bgDirs
        dircount := if dir then a.dircount+1 else a.dircount
        sFree := sub32 a.sFree 1
        descDirty := update a.descDirty (last/g.descPerBlock) true
        sDirt := true } (g.inodeAt i j)
  else if a.bgFree i≠0 then .corrupted else .again

def freeInodeOk (ino : ℕ) : Bool := decide (11 ≤ ino) && decide (ino≤g.inodesCount)

/-- The region of `ext2_free_inode` after the bitmap has been read. -/
def freeInodeFinish (dir : Bool) (ino : ℕ) : Inodes :=
  let i := g.groupOf ino
  let j := g.bitOf ino
  if a.bitmap i j then
    { a with
      bitmap := update a.bitmap i (update (a.bitmap i) j false)
      bgFree := update a.bgFree i ((a.bgFree i+1)%2^16)
      bgDirs := if dir then update a.bgDirs i (sub16 (a.bgDirs i) 1) else a.bgDirs
      dircount := if dir then a.dircount-1 else a.dircount
      sFree := (a.sFree+1)%2^32
      descDirty := update a.descDirty (i/g.descPerBlock) true
      sDirt := true }
  else { a with sDirt := true }

end Ext2fsX.Ialloc
