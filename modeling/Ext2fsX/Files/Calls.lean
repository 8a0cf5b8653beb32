import Ext2fsX.Blocks.Addresses

namespace Ext2fsX.Files

open Blocks (Geometry getlbns int32)

def int64 (x : ℤ) : ℤ := x.bmod (2^64)

def uint64 (x : ℤ) : ℕ := (x%2^64).toNat

structure File where
  db : ℕ → ℕ
  size : ℕ

inductive Error where
  | eperm
  | efbig
  | enospc
  | eio
  | other (n : ℕ)
deriving DecidableEq

/-- The panic of `ext2_balloc2` and `ext2_blkalloc`: "Something is terribly wrong". -/
inductive Stop where
  | wrong

/-- One call of `ext2_balloc2`: the block for a direct pointer (0 for `ENOSPC`), whether the data
can be read, and what the indirect part returns. -/
structure Balloc where
  grant : ℕ
  read : Bool
  indirect : Option Error

/-- One call of `ext2_truncate`: its `ext2_balloc2`, and what the rest of it returns. -/
structure Truncation where
  balloc : Balloc
  rest : Option Error

namespace File

variable (g : Geometry) (f : File)

/-- `ext2_balloc2`; `size` is the end of the data in the block. -/
def balloc2 (nobuff : Bool) (a : Balloc) (bn : ℤ) (size : ℕ) : Except Stop (File × Option Error) :=
  if bn<0 then .ok (f,some .efbig)
  else if bn<12 then
    let k := bn.toNat
    if f.db k≠0 then
      if (k+1)*g.blocksize ≤ f.size ∨ g.fragroundup size≤g.fragroundup (f.size%g.blocksize) then
        .ok (f,if nobuff=false ∧ a.read=false then some .eio else none)
      else .error .wrong
    else if a.grant=0 then .ok (f,some .enospc)
    else .ok ({ f with db := Function.update f.db k a.grant },none)
  else if (getlbns g.nindir bn.toNat).isNone then .ok (f,some .efbig)
  else .ok (f,a.indirect)

/-- The last part of `ext2_truncate`: the pointers behind the last block are cleared. -/
def shorten (length : ℤ) : File :=
  let lastblock := int32 ((length+g.blocksize-1)/g.blocksize-1)
  { db := fun i => if lastblock < i ∧ i<12 then 0 else f.db i, size := length.toNat }

def truncate (a : Truncation) (length : ℤ) : Except Stop (File × Option Error) :=
  if length<0 ∨ g.maxfilesize<length then .ok (f,some .efbig)
  else if f.size=length then .ok (f,a.rest)
  else if int64 f.size<length then
    match f.balloc2 g false a.balloc (int32 ((length-1)/g.blocksize))
        ((length-1)%g.blocksize+1).toNat with
    | .error x => .error x
    | .ok (f,some e) => .ok (f,some e)
    | .ok (f,none) => .ok ({ f with size := length.toNat },a.rest)
  else if length%g.blocksize=0 then .ok (f.shorten g length,a.rest)
  else
    match f.balloc2 g false a.balloc (int32 (length/g.blocksize)) (length%g.blocksize).toNat with
    | .error x => .error x
    | .ok (f,some e) => .ok (f,some e)
    | .ok (f,none) => .ok (f.shorten g length,a.rest)

end File

structure Uio where
  offset : ℤ
  resid : ℤ

structure Ioflag where
  append : Bool
  sync : Bool
  unit : Bool

/-- Whether it is a directory, whether its pages are in the unified cache, and `EXT2_APPEND`. -/
structure Vnode where
  dir : Bool
  ubc : Bool
  appendOnly : Bool
  ubc_reg : ubc=true → dir=false

/-- One write: the `k`-th `ext2_balloc2`, the bytes the `k`-th buffer has, a `uiomove` or a
`cluster_write` that fails (bytes and error), the two calls of `ext2_truncate`, and `ext2_update`.
-/
structure Answers where
  balloc : ℕ → Balloc
  avail : ℕ → ℕ
  uiomove : ℕ → Option (ℕ × Error)
  cluster : Option (ℕ × Error)
  cut : Truncation
  undo : Truncation
  update : Option Error

/-- The allocation before `cluster_write`. `calls` has the offset and the logical number of every
successful `ext2_balloc2`. -/
structure Round where
  file : File
  rsd : ℤ
  localOffset : ℤ
  error : Option Error
  calls : List (ℤ × ℤ)

def Round.saved (l : Round) : ℤ := if l.error.isSome then l.rsd else 0

variable (g : Geometry)

def xfersize (offset resid : ℤ) : ℤ := min (g.blocksize-offset%g.blocksize) resid

/-- Every round takes a byte at least, so `n` is the bytes left at first. -/
def allocLoop (ans : ℕ → Balloc) : ℕ → ℕ → Round → Except Stop Round
  | 0,_,l => .ok l
  | n+1,k,l =>
    if l.rsd≤0 then .ok l
    else
      let lbn := int32 (l.localOffset/g.blocksize)
      let blkoffset := l.localOffset%g.blocksize
      let size := xfersize g l.localOffset l.rsd
      match l.file.balloc2 g true (ans k) lbn (blkoffset+size).toNat with
      | .error x => .error x
      | .ok (f,some e) => .ok { l with file := f, error := some e }
      | .ok (f,none) =>
        let next := int64 (l.localOffset+size)
        allocLoop ans n (k+1)
          { file := { f with size := max f.size (uint64 next) }
            rsd := l.rsd-size
            localOffset := next
            error := none
            calls := l.calls++[(l.localOffset,lbn)] }

/-- What a branch leaves. `stored` is the number of bytes taken from the caller. -/
structure Branch where
  file : File
  uio : Uio
  error : Option Error
  stored : ℤ
  calls : List (ℤ × ℤ)

variable (ans : Answers)

/-- The bytes that `cluster_write` stores of so many: all, unless it fails. -/
def Answers.moved (resid : ℤ) : ℤ := ans.cluster.elim resid (fun x => min x.1 resid)

/-- Behind `cluster_write`, which has come to `offset`; `f` is the file after the allocation. -/
def settle (io : Ioflag) (osize offset : ℤ) (f : File) :
    Except Stop File :=
  if osize<offset then
    if ans.cluster.isSome ∧ io.unit=false then
      match f.truncate g ans.cut offset with
      | .error x => .error x
      | .ok (f,_) => .ok { f with size := uint64 offset }
    else .ok { f with size := uint64 offset }
  else .ok f

/-- The branch of `ext2_write_internal` through the unified cache. -/
def writeCluster (io : Ioflag) (f : File) (u : Uio) :
    Except Stop Branch :=
  let rsd := int32 u.resid
  match allocLoop g ans.balloc rsd.toNat 0 ⟨f,rsd,u.offset,none,[]⟩ with
  | .error x => .error x
  | .ok l =>
    -- what could not be allocated is taken off the request
    let resid := u.resid-l.saved
    let moved := ans.moved resid
    let offset := int64 (u.offset+moved)
    match settle g ans io (int64 f.size) offset l.file with
    | .error x => .error x
    | .ok f =>
      .ok ⟨f,⟨offset,resid-moved+l.saved⟩,(ans.cluster.map Prod.snd).or l.error,moved,l.calls⟩

/-- The branch of `ext2_write_internal` through buffers; `n` is the bytes left at first. -/
def writeBuffers : ℕ → ℕ → Branch → Except Stop Branch
  | 0,_,b => .ok b
  | n+1,k,b =>
    if b.uio.resid≤0 then .ok b
    else
      let offset := b.uio.offset
      let lbn := int32 (offset/g.blocksize)
      let blkoffset := offset%g.blocksize
      let size := xfersize g offset b.uio.resid
      match b.file.balloc2 g false (ans.balloc k) lbn (blkoffset+size).toNat with
      | .error x => .error x
      | .ok (f,some e) => .ok { b with file := f, error := some e }
      | .ok (f,none) =>
        let f := { f with size := max f.size (uint64 (offset+size)) }
        let calls := b.calls++[(offset,lbn)]
        let size := min size (ans.avail k)
        if size≤0 then .ok { b with file := f, calls := calls }
        else
          match ans.uiomove k with
          | some (m,e) =>
            let moved := min (m : ℤ) size
            .ok ⟨f,⟨int64 (offset+moved),b.uio.resid-moved⟩,some e,b.stored+moved,calls⟩
          | none =>
            writeBuffers n (k+1)
              ⟨f,⟨int64 (offset+size),b.uio.resid-size⟩,none,b.stored+size,calls⟩

def writeBody (v : Vnode) (ans : Answers) (io : Ioflag) (f : File) (u : Uio) :
    Except Stop Branch :=
  let resid := int32 u.resid
  match (if v.ubc then writeCluster g ans io f u
    else writeBuffers g ans u.resid.toNat 0 ⟨f,u,none,0,[]⟩) with
  | .error x => .error x
  | .ok b =>
    if b.error.isSome then
      if io.unit then
        match b.file.truncate g ans.undo (int64 f.size) with
        | .error x => .error x
        | .ok (f,_) =>
          .ok { b with file := f, uio := ⟨int64 (b.uio.offset-(resid-b.uio.resid)),resid⟩ }
      else .ok b
    else if b.uio.resid < resid ∧ io.sync then .ok { b with error := ans.update }
    else .ok b

/-- `ext2_write_internal`; the outer `none` is the panic for a directory without `IO_SYNC`. -/
def writeInternal (v : Vnode) (ans : Answers) (io : Ioflag) (f : File) (u : Uio) :
    Option (Except Stop Branch) :=
  if u.resid=0 then some (.ok ⟨f,u,none,0,[]⟩)
  else if v.dir then
    if io.sync then some (writeBody g v ans io f u) else none
  else
    let u := if io.append then { u with offset := int64 f.size } else u
    if v.appendOnly ∧ uint64 u.offset≠f.size then some (.ok ⟨f,u,some .eperm,0,[]⟩)
    else some (writeBody g v ans io f u)

end Ext2fsX.Files
