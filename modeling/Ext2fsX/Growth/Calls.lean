import Ext2fsX.Alloc.Holding
import Ext2fsX.Blocks.Blkalloc

namespace Ext2fsX.Growth

open Framework
open Alloc (Slot target level)
open Blocks (Geometry Errno Stop Panic int32)

def btodb (bytes : ℕ) : ℕ := bytes/512

/-- An inode with its pointers and those of its indirect blocks, and the blocks marked used. -/
structure File where
  ptr : Slot → ℕ
  size : ℕ
  blocks : ℤ
  regular : Bool
  preallocBlock : ℕ
  preallocCount : ℕ
  used : ℕ → Bool

/-- At one pointer of a path: whether a check for free space fails, the preferred block, what
`ext2_new_block` finds, what `icount` and `ibn` hold if it finds nothing, which transfers succeed,
and what a block holds whose write was lost. -/
structure Answer where
  full : Bool
  bpref : ℕ
  grant : Option (ℕ × ℕ)
  junk : ℕ × ℕ
  read : Bool
  write : Bool
  link : Bool
  data : Bool
  device : ℕ → ℕ

/-- `B_SYNC`, `B_CLRBUF` and `B_NOBUFF`. -/
structure Flags where
  sync : Bool
  clrbuf : Bool
  nobuff : Bool

namespace File

variable (f : File)

def freeBlocks (b n : ℕ) : File :=
  { f with used := fun x => f.used x && !(decide (b≤x) && decide (x<b+n)) }

variable (g : Geometry)

def blkfree (b : ℕ) : File := f.freeBlocks b (g.blocksize/g.fsize)

def discardPrealloc : File :=
  if f.preallocCount≠0 then
    { f with preallocCount := 0 }.freeBlocks f.preallocBlock f.preallocCount
  else f

def isFree (b n : ℕ) : Bool := decide (b≠0) && (List.range (n+1)).all (fun i => !f.used (b+i))

def mark (b n : ℕ) : File :=
  { f with used := fun x => f.used x || (decide (b≤x) && decide (x≤b+n)) }

variable (a : Answer)

/-- `ext2_new_block` has found nothing; a regular file gets what is on the stack for a window. -/
def noBlock : File :=
  if f.regular then { f with preallocBlock := a.junk.1, preallocCount := a.junk.2 } else f

/-- `ext2_new_block`, and the window that `ext2_alloc` makes of what is behind the block. -/
def newBlock : File × ℕ :=
  match a.grant with
  | none => (f.noBlock a,0)
  | some (b,n) =>
    if f.regular then
      if f.isFree b n then ({ f.mark b n with preallocBlock := b+1, preallocCount := n },b)
      else (f.noBlock a,0)
    else if f.isFree b 0 then (f.mark b 0,b)
    else (f.noBlock a,0)

def takeBlock : File × ℕ :=
  if f.preallocCount≠0 ∧ (a.bpref=f.preallocBlock ∨ a.bpref+1=f.preallocBlock) then
    ({ f with preallocBlock := f.preallocBlock+1, preallocCount := f.preallocCount-1 },
      f.preallocBlock)
  else f.discardPrealloc.newBlock a

/-- `ext2_alloc`; `none` for `ENOSPC`. The block number is tested as an `int`. -/
def alloc (size : ℕ) : File × Option ℕ :=
  if a.full then (f,none)
  else
    let (f,b) := f.takeBlock a
    if 0<b ∧ b<2^31 then ({ f with blocks := int32 (f.blocks+btodb size) },some b) else (f,none)

def store (p : Slot) (b : ℕ) : File := { f with ptr := Function.update f.ptr p b }

def clear (p : Slot) : File := { f with ptr := clearUnder f.ptr p }

/-- The result of a synchronous write is not looked at; a buffer that could not be written is lost.
-/
def link (sync : Bool) (a : Answer) (p : Slot) (b : ℕ) : File :=
  if sync ∧ a.link=false then
    { f with ptr := fun q => if q.tail=p.tail ∧ q≠[] then a.device (q.headD 0) else f.ptr q }
  else f.store p b

variable (fl : Flags)

/-- The end of `ext2_balloc2`: the pointer `p` in an indirect block is that of the data. -/
def ballocData (a : Answer) (p : Slot) : File × Errno :=
  if f.ptr p≠0 then
    if fl.nobuff=false ∧ fl.clrbuf ∧ a.data=false then (f,.eio) else (f,.ok)
  else
    match f.alloc a g.blocksize with
    | (f,none) => (f,.enospc)
    | (f,some b) => (f.link fl.sync a p b,.ok)

/-- The loop of `ext2_balloc2` below the indirect block that `p` points to. -/
def ballocPath (ans : ℕ → Answer) :
    List ℕ → Slot → ℕ → File → File × Errno
  | [],_,_,f => (f,.ok)
  | o::rest,p,i,f =>
    if (ans i).read=false then (f,.eio)
    else if rest.isEmpty then f.ballocData g fl (ans i) (o::p)
    else if f.ptr (o::p)≠0 then ballocPath ans rest (o::p) (i+1) f
    else
      match f.alloc (ans i) g.blocksize with
      | (f,none) => (f,.enospc)
      | (f,some b) =>
        if (ans i).write=false then (f.blkfree g b,.eio)
        else
          ballocPath ans rest (o::p) (i+1)
            ((f.clear (o::p)).link fl.sync (ans i) (o::p) b)

def nsize (bn size : ℕ) : ℕ :=
  if f.size<(bn+1)*g.blocksize then g.fragroundup size else g.blocksize

def ballocDirect (a : Answer) (bn size : ℕ) :
    Except Stop (File × Errno) :=
  if f.ptr [bn]≠0 then
    if (bn+1)*g.blocksize ≤ f.size ∨ g.fragroundup size≤g.fragroundup (f.size%g.blocksize) then
      .ok (if fl.nobuff=false ∧ a.data=false then (f,.eio) else (f,.ok))
    else .error .wrong
  else
    match f.alloc a (f.nsize g bn size) with
    | (f,none) => .ok (f,.enospc)
    | (f,some b) => .ok (f.store [bn] b,.ok)

def balloc2 (ans : ℕ → Answer) (bn size : ℕ) :
    Except Stop (File × Errno) :=
  match target g bn with
  | none => .ok (f,.efbig)
  | some (k,[]) => f.ballocDirect g fl (ans 0) k size
  | some (k,offs) =>
    if f.ptr [k]≠0 then .ok (f.ballocPath g fl ans offs [k] 1)
    else
      match f.alloc (ans 0) g.blocksize with
      | (f,none) => .ok (f,.enospc)
      | (f,some b) =>
        if (ans 0).write=false then .ok (f.blkfree g b,.eio)
        else .ok (((f.clear [k]).store [k] b).ballocPath g fl ans offs [k] 1)

/-- `fail:` of `ext2_blkalloc`; `got` is `allociblk` and `root` the pointer that `allocib` names. -/
def fail (got : List ℕ) (root : Option Slot) : File :=
  let f := got.foldl (fun f b => f.blkfree g b) f
  let f :=
    match root with
    | some p => f.store p 0
    | none => f
  if got.isEmpty then f
  else { f with blocks := int32 (f.blocks-btodb (got.length*g.blocksize)) }

/-- The loop of `ext2_blkalloc` below the indirect block that `p` points to. -/
def blkallocPath (sync : Bool) (ans : ℕ → Answer) (root : Option Slot) :
    List ℕ → Slot → ℕ → List ℕ → File → File × Errno
  | [],_,_,_,f => (f,.ok)
  | o::rest,p,i,got,f =>
    if (ans i).read=false then (f.fail g got root,.eio)
    else if f.ptr (o::p)≠0 then blkallocPath sync ans root rest (o::p) (i+1) got f
    else
      match f.alloc (ans i) g.blocksize with
      | (f,none) => (f.fail g got root,.enospc)
      | (f,some b) =>
        if rest.isEmpty then (f.link sync (ans i) (o::p) b,.ok)
        else if (ans i).write=false then (f.fail g (got++[b]) root,.eio)
        else
          blkallocPath sync ans root rest (o::p) (i+1) (got++[b])
            ((f.clear (o::p)).link sync (ans i) (o::p) b)

def blkallocDirect (bn size : ℕ) : Except Panic (File × Errno) :=
  if f.ptr [bn]≠0 then
    if (bn+1)*g.blocksize ≤ f.size ∨ g.fragroundup size≤g.fragroundup (f.size%g.blocksize) then
      .ok (f,.ok)
    else .error .wrong
  else
    match f.alloc a (f.nsize g bn size) with
    | (f,none) => .ok (f,.enospc)
    | (f,some b) => .ok (f.store [bn] b,.ok)

/-- The indirect part of `ext2_blkalloc`, for a path that starts at pointer `k` of the inode. -/
def blkallocIndirect (sync : Bool) (ans : ℕ → Answer) (k : ℕ) (offs : List ℕ) :
    File × Errno :=
  if f.ptr [k]≠0 then f.blkallocPath g sync ans none offs [k] 1 []
  else
    match f.alloc (ans 0) g.blocksize with
    | (f,none) => (f,.enospc)
    | (f,some b) =>
      if (ans 0).write=false then (f.fail g [b] none,.eio)
      else ((f.clear [k]).store [k] b).blkallocPath g sync ans (some [k]) offs [k] 1 [b]

def blkalloc (sync : Bool) (ans : ℕ → Answer) (bn size : ℕ) :
    Except Panic (File × Errno) :=
  let nb := int32 ((f.size/g.blocksize : ℕ) : ℤ)
  if g.blocksize < size then .error .tooLarge
  else if nb<12 ∧ nb<bn then .error .extend
  else
    match target g bn with
    | none => .ok (f,.efbig)
    | some (k,[]) => f.blkallocDirect g (ans 0) k size
    | some (k,offs) => .ok (f.blkallocIndirect g sync ans k offs)

end File

end Ext2fsX.Growth
