import Ext2fsX.Balloc.Bitops
import Ext2fsX.Framework.ClearBits
import Mathlib.Algebra.BigOperators.Group.Finset.Basic

namespace Ext2fsX.Balloc

open Framework
open Function (update)

/-- The disk as the block allocator reads it; free counts fit 16 bits. -/
structure Disk where
  firstDataBlock : ℕ
  blocksCount : ℕ
  blocksPerGroup : ℕ
  groupsCount : ℕ
  descPerBlock : ℕ
  itpg : ℕ
  preallocBlocks : ℕ
  blockBitmap : ℕ → ℕ
  inodeBitmap : ℕ → ℕ
  inodeTable : ℕ → ℕ
  first_lt : firstDataBlock<blocksCount
  count_lt : blocksCount<2^32
  bpg_pos : 0<blocksPerGroup
  bpg_lt : blocksPerGroup<2^16
  groups_eq : groupsCount=(blocksCount-firstDataBlock+blocksPerGroup-1)/blocksPerGroup

/-- The groups are whole 64-bit words of the bitmaps. -/
structure Geometry extends Disk where
  bpg_dvd : 64∣blocksPerGroup

instance Geometry.coeDisk : Coe Geometry Disk := ⟨Geometry.toDisk⟩

/-- What the allocator changes. -/
structure Alloc where
  bitmap : ℕ → ℕ → Bool
  bgFree : ℕ → ℕ
  sFree : ℕ
  descDirty : ℕ → Bool
  sDirt : Bool

namespace Disk

variable (g : Disk)

def blockAt (i j : ℕ) : ℕ := j+i*g.blocksPerGroup+g.firstDataBlock

def groupOf (b : ℕ) : ℕ := (b-g.firstDataBlock)/g.blocksPerGroup

def bitOf (b : ℕ) : ℕ := (b-g.firstDataBlock)%g.blocksPerGroup

def Valid (b : ℕ) : Prop := g.firstDataBlock≤b ∧ b<g.blocksCount

def System (i b : ℕ) : Prop :=
  b=g.blockBitmap i ∨ b=g.inodeBitmap i ∨ (g.inodeTable i≤b ∧ b<g.inodeTable i+g.itpg)

end Disk

def inRange (b first len : ℕ) : Bool := first≤b && b≤(first+len+2^64-1)%2^64

def signExtend (x : ℕ) : ℕ := if x<2^31 then x else x+(2^64-2^32)

def sub16 (x n : ℕ) : ℕ := (x+2^16-n)%2^16

def sub32 (x n : ℕ) : ℕ := (x+2^32-n)%2^32

/-- Where `ext2_new_block` goes when it gives the superblock lock up: to read the bitmap of the
goal's group or of a group found by the search, or back with no block. -/
inductive Search where
  | goal (i j : ℕ)
  | scan (i : ℕ)
  | full
  deriving DecidableEq

variable (g : Disk)

def wrapGroup (i : ℕ) : ℕ := if g.groupsCount ≤ i+1 then 0 else i+1

variable (a : Alloc)

def nextGroup : ℕ → ℕ → Search
  | 0,_ => .full
  | k+1,i =>
    if 0<a.bgFree (wrapGroup g i) then .scan (wrapGroup g i)
    else nextGroup k (wrapGroup g i)

def clampGoal (goal : ℕ) : ℕ :=
  if goal<g.firstDataBlock ∨ g.blocksCount≤goal then g.firstDataBlock else goal

def newBlockStart (goal : ℕ) : Search :=
  let i := g.groupOf (clampGoal g goal)
  if 0<a.bgFree i then .goal i (g.bitOf (clampGoal g goal))
  else nextGroup g a g.groupsCount i

def searchBack (bits : ℕ → Bool) : ℕ → ℕ → ℕ
  | 0,j => j
  | _+1,0 => 0
  | k+1,j+1 => if bits j then j+1 else searchBack bits k j

/-- The goal itself, the rest of its 64-bit word, a free byte of the remainder, any free bit of it.
-/
def goalSearch (bpg : ℕ) (bits : ℕ → Bool) (j : ℕ) : Option ℕ :=
  if !bits j then some j
  else
    let endGoal := (j+63)/64*64
    let near := if j=0 then 0 else findNextZeroBit bits endGoal j
    if j≠0 ∧ near<endGoal then some near
    else
      let k := memscan bits (near/8) ((bpg-near+7)/8)*8
      if k<bpg then some (searchBack bits 7 k)
      else
        let k := findNextZeroBit bits bpg near
        if k<bpg then some k else none

def scanSearch (bpg : ℕ) (bits : ℕ → Bool) : Option ℕ :=
  let j := memscan bits 0 (bpg/8)*8
  if j<bpg then some (searchBack bits 7 j)
  else
    let j := findFirstZeroBit bits 0 bpg
    if j<bpg then some j else none

/-- At most `n` blocks from bit `p` on, up to the first bit that is set; how many, and the bitmap.
-/
def prealloc (bpg : ℕ) : ℕ → ℕ → (ℕ → Bool) → ℕ × (ℕ → Bool)
  | 0,_,bits => (0,bits)
  | n+1,p,bits =>
    if bpg≤p then (0,bits)
    else if bits p then (0,bits)
    else
      let r := prealloc bpg n (p+1) (update bits p true)
      (r.1+1,r.2)

def preallocGoal : ℕ := if g.preallocBlocks=0 then 8 else g.preallocBlocks

inductive Got where
  | panic
  | again
  | lost (a : Alloc)
  | got (a : Alloc) (block count : ℕ)

/-- From `got_block:` on, with bit `j` of group `i` chosen; `pre`: the caller wants a window. -/
def gotBlock (pre : Bool) (i j : ℕ) : Got :=
  let tmp := g.blockAt i j%2^32
  if tmp=g.blockBitmap i ∨ tmp=g.inodeBitmap i ∨
      (g.inodeTable i≤tmp ∧ inRange (signExtend tmp) (g.inodeTable i) g.itpg=true) then .panic
  else if a.bitmap i j then .again
  else
    let bits := update (a.bitmap i) j true
    let r := if pre then prealloc g.blocksPerGroup (preallocGoal g-1) (j+1) bits else (0,bits)
    let a := { a with
      bitmap := update a.bitmap i r.2
      bgFree := update a.bgFree i (sub16 (a.bgFree i) r.1)
      sFree := sub32 a.sFree r.1 }
    if g.blocksCount≤tmp then .lost a
    else .got { a with
      bgFree := update a.bgFree i (sub16 (a.bgFree i) 1)
      sFree := sub32 a.sFree 1
      descDirty := update a.descDirty (i/g.descPerBlock) true
      sDirt := true } tmp r.1

inductive FreeStart where
  | outside
  | panic
  | read (i bit : ℕ)

def freeBlocksStart (block count : ℕ) : FreeStart :=
  if block<g.firstDataBlock ∨ g.blocksCount<block+count then .outside
  else if g.blocksPerGroup<g.bitOf block+count then .panic
  else if g.groupsCount≤g.groupOf block then .panic
  else .read (g.groupOf block) (g.bitOf block)

/-- One pass of the freeing loop: `ext2_clear_bit`, and the counters if it was set. -/
def clearBit (i bit : ℕ) : Alloc :=
  if a.bitmap i bit then
    { a with
      bitmap := update a.bitmap i (update (a.bitmap i) bit false)
      bgFree := update a.bgFree i ((a.bgFree i+1)%2^16)
      sFree := (a.sFree+1)%2^32 }
  else a

def clearLoop (i : ℕ) : ℕ → ℕ → Alloc → Alloc
  | 0,_,a => a
  | n+1,bit,a => clearLoop i n (bit+1) (clearBit a i bit)

/-- The region of `ext2_free_blocks` after the bitmap is read; `none` is the panic on a system zone.
-/
def freeBlocksFinish (i bit block count : ℕ) : Option Alloc :=
  if inRange (g.blockBitmap i) block count ∨ inRange (g.inodeBitmap i) block count ∨
      inRange block (g.inodeTable i) g.itpg ∨
      inRange ((block+count+2^64-1)%2^64) (g.inodeTable i) g.itpg then none
  else
    let a := clearLoop i count bit a
    some { a with
      descDirty := update a.descDirty (i/g.descPerBlock) true
      sDirt := true }

end Ext2fsX.Balloc
