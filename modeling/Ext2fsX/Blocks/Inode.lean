import Mathlib.Algebra.Ring.Int.Defs
import Mathlib.Algebra.Ring.Nat

namespace Ext2fsX.Blocks

/-- What the block code reads of the mount. A block is at most a page. -/
structure Geometry where
  logBlockSize : ℕ
  fsize : ℕ
  devBlockSize : ℕ
  blocksCount : ℕ
  rBlocksCount : ℕ
  maxsymlen : ℕ
  log_le : logBlockSize≤2

def kilo : Geometry := ⟨0,1024,512,5000,0,60,by decide⟩

namespace Geometry

variable (g : Geometry)

def blocksize : ℕ := 1024*2^g.logBlockSize

def nindir : ℕ := 256*2^g.logBlockSize

def maxfilesize : ℕ := (12+g.nindir+g.nindir^2+g.nindir^3)*g.blocksize

def btodb (bytes : ℕ) : ℕ := bytes/g.devBlockSize

def fragroundup (size : ℕ) : ℕ := (size+g.fsize-1)/g.fsize*g.fsize

def fsbtodb (b : ℤ) : ℤ := (b*2^(g.logBlockSize+1)).bmod 4294967296

end Geometry

structure Buf where
  blkno : ℤ
  ptrs : ℕ → ℤ

/-- What `ext2_new_block` finds: a block, and the run that is reserved after it. -/
structure Grant where
  block : ℕ
  preallocBlock : ℕ
  preallocCount : ℕ

/-- Which transfers succeed, what `ext2_new_block` finds, the credential, the kind of the file, the
block its inode is near, and uninitialised variables. -/
structure Env where
  io : ℕ → Bool
  newBlock : ℕ → Option Grant
  root : Bool
  regular : Bool
  symlink : Bool
  near : ℤ
  junk : ℕ × ℕ

/-- The inode, the buffers of its indirect blocks, the device, and the blocks freed so far. `clock`
counts what `Env` was asked. -/
structure State where
  db : ℕ → ℤ
  ib : ℕ → ℤ
  size : ℕ
  blocks : ℤ
  preallocBlock : ℕ
  preallocCount : ℕ
  nextAllocBlock : ℤ
  nextAllocGoal : ℤ
  cache : ℤ → Option Buf
  disk : ℤ → ℕ → ℤ
  freeCount : ℕ
  freed : List ℤ
  clock : ℕ

inductive Errno where
  | ok
  | eio
  | enospc
  | efbig
  deriving DecidableEq

inductive Stop where
  | wrong
  | newspace
  | bounds

namespace State

variable (s : State)

def tick : State := { s with clock := s.clock+1 }

def freeBlocks (block : ℤ) (count : ℕ) : State :=
  { s with
    freed := s.freed++(List.range count).map (fun i : ℕ => block+(i : ℤ))
    freeCount := s.freeCount+count }

def blkfree (g : Geometry) (s : State) (bno : ℤ) (size : ℕ) : State :=
  s.freeBlocks bno (size/g.fsize)

def discardPrealloc : State :=
  if s.preallocCount≠0 then
    { s with preallocCount := 0 }.freeBlocks s.preallocBlock s.preallocCount
  else s

def lastNonzero (bap : ℕ → ℤ) : ℕ → Option ℤ
  | 0 => none
  | i+1 => if bap i≠0 then some (bap i) else lastNonzero bap i

def blkpref (env : Env) (s : State) (lbn : ℤ) (indx : ℕ) (bap : ℕ → ℤ) (blocknr : ℤ) : ℤ :=
  if s.nextAllocBlock≠0 ∧ s.nextAllocBlock=lbn then s.nextAllocGoal
  else (lastNonzero bap indx).getD (if blocknr≠0 then blocknr else env.near)

def inodePtrs (i : ℕ) : ℤ := if i<12 then s.db i else s.ib (i-12)

/-- The block that `ext2_alloc` gets, from the window or from `ext2_new_block`; 0 for none. -/
def takeBlock (env : Env) (s : State) (bpref : ℤ) : State × ℤ :=
  if s.preallocCount≠0 ∧ (bpref=s.preallocBlock ∨ bpref+1=s.preallocBlock) then
    ({ s with
      preallocBlock := s.preallocBlock+1
      preallocCount := s.preallocCount-1 },s.preallocBlock)
  else
    let s := s.discardPrealloc
    match env.newBlock s.clock with
    | some x =>
      if env.regular then
        ({ s.tick with
          preallocBlock := x.preallocBlock
          preallocCount := x.preallocCount
          freeCount := s.freeCount-(1+x.preallocCount) },x.block)
      else ({ s.tick with freeCount := s.freeCount-1 },x.block)
    | none =>
      if env.regular then
        -- `icount` and `ibn` have not been set
        ({ s.tick with preallocBlock := env.junk.1, preallocCount := env.junk.2 },0)
      else (s.tick,0)

/-- `ext2_alloc`; `none` for `ENOSPC`. -/
def alloc (g : Geometry) (env : Env) (s : State) (lbn bpref : ℤ) (size : ℕ) : State × Option ℤ :=
  if (size=g.blocksize ∧ s.freeCount=0) ∨ (env.root=false ∧ s.freeCount<g.rBlocksCount) then
    (s,none)
  else
    let (s,bno) := s.takeBlock env (if (g.blocksCount : ℤ)≤bpref%4294967296 then 0 else bpref)
    if 0<bno then
      ({ s with
        nextAllocBlock := lbn
        nextAllocGoal := bno
        blocks := s.blocks+g.btodb size },some bno)
    else (s,none)

end State

end Ext2fsX.Blocks
