import Ext2fsX.Blocks.Balloc

namespace Ext2fsX.Blocks

structure Released where
  state : State
  count : ℕ
  errno : Errno

def Errno.orElse (e e' : Errno) : Errno := if e=.ok then e' else e

abbrev Indirtrunc := State → ℤ → ℤ → ℤ → Except Stop Released

variable (g : Geometry)

/-- Frees whole blocks from index `i` down to `last`. The addresses are in `bap`. -/
def freeWhole (level : ℕ) (call : Indirtrunc) (lbn last : ℤ) (bap : ℕ → ℤ) :
    ℕ → Released → Except Stop Released
  | 0,r => .ok r
  | i+1,r =>
    if (i : ℤ)≤last then .ok r
    else
      let nb := bap i
      if nb=0 then freeWhole level call lbn last bap i r
      else if level=0 then
        freeWhole level call lbn last bap i
          ⟨r.state.blkfree g nb g.blocksize,r.count+g.btodb g.blocksize,r.errno⟩
      else
        match call r.state (lbn+1-(i*g.nindir^level : ℕ)) (g.fsbtodb nb) (-1) with
        | .error x => .error x
        | .ok q =>
          freeWhole level call lbn last bap i
            ⟨q.state.blkfree g nb g.blocksize,r.count+q.count+g.btodb g.blocksize,
              q.errno.orElse r.errno⟩

namespace State

/-- The buffer that `ext2_indirtrunc` works on; one that is not valid is read from `dbn`. -/
def indirBuf (env : Env) (s : State) (lbn dbn : ℤ) : Option (State × Buf) :=
  match s.cache lbn with
  | some b => some (s,b)
  | none => if env.io s.clock then some (s.tick,⟨dbn,s.disk dbn⟩) else none

/-- The shortened indirect block is written, and leaves the cache if nothing is left of it. -/
def indirWrite (env : Env) (s : State) (lbn last : ℤ) (b : Buf) : State × Errno :=
  let ptrs (i : ℕ) : ℤ := if last<(i : ℤ) then 0 else b.ptrs i
  let cache (l : ℤ) : Option Buf :=
    if l=lbn then if last=-1 then none else some { b with ptrs := ptrs } else s.cache l
  if env.io s.clock then
    ({ s.tick with
      cache := cache, disk := fun a => if a=b.blkno then ptrs else s.disk a },.ok)
  else ({ s.tick with cache := cache },.eio)

end State

/-- The body of `ext2_indirtrunc`; `call` is the function itself, one level down. -/
def indirtruncBody (env : Env) (level : ℕ) (call : Indirtrunc) : Indirtrunc :=
  fun s lbn lastbn dbn =>
    let factor : ℤ := (g.nindir^level : ℕ)
    let last := if 0<lastbn then lastbn/factor else lastbn
    match s.indirBuf env lbn dbn with
    | none => .ok ⟨s.tick,0,.eio⟩
    | some (s,b) =>
      -- `bzero` from `bap[last + 1]` to the end of the block
      if last< -1 ∨ (g.nindir : ℤ)<last+1 then .error .bounds
      else
        let (s,e) := s.indirWrite env lbn last b
        match freeWhole g level call lbn last b.ptrs g.nindir ⟨s,0,e⟩ with
        | .error x => .error x
        | .ok r =>
          if level≠0 ∧ 0≤lastbn ∧ b.ptrs last.toNat≠0 then
            match call r.state (lbn+1-last*factor) (g.fsbtodb (b.ptrs last.toNat))
                (lastbn%factor) with
            | .error x => .error x
            | .ok q => .ok ⟨q.state,r.count+q.count,q.errno.orElse r.errno⟩
          else .ok r

def indirtrunc (env : Env) : ℕ → Indirtrunc
  | 0 => indirtruncBody g env 0 (fun s _ _ _ => .ok ⟨s,0,.ok⟩)
  | level+1 => indirtruncBody g env (level+1) (indirtrunc env level)

def rootStart (n : ℕ) : ℕ → ℕ
  | 0 => 12
  | level+1 => rootStart n level+n^(level+1)

theorem rootStart_mono (n level : ℕ) : rootStart n level ≤ rootStart n (level+1) :=
  Nat.le_add_right _ _

theorem rootStart_ge (n level : ℕ) : 12 ≤ rootStart n level := by
  induction level with
  | zero => exact Nat.le_refl _
  | succ level ih => exact Nat.le_trans ih (rootStart_mono n level)

def indirLbn (n level : ℕ) : ℤ := -(rootStart n level+level : ℕ)

def lastiblock (n : ℕ) (lastblock : ℤ) (level : ℕ) : ℤ :=
  if lastblock-rootStart n level<0 then -1 else lastblock-rootStart n level

/-- The roots from `level - 1` down to `SINGLE`. The flag: it has ended with a root of which
something is kept. -/
def truncRoots (env : Env) (lastblock : ℤ) :
    ℕ → Released → Except Stop (Released × Bool)
  | 0,r => .ok (r,false)
  | level+1,r =>
    let last := lastiblock g.nindir lastblock level
    let bn := r.state.ib level
    if bn=0 then
      if 0≤last then .ok (r,true) else truncRoots env lastblock level r
    else
      match indirtrunc g env level r.state (indirLbn g.nindir level) (g.fsbtodb bn) last with
      | .error x => .error x
      | .ok q =>
        if 0≤last then
          .ok (⟨q.state,r.count+q.count,q.errno.orElse r.errno⟩,true)
        else
          truncRoots env lastblock level
            ⟨{ q.state with ib := Function.update q.state.ib level 0 }.blkfree g bn g.fsize,
              r.count+q.count+g.btodb g.blocksize,q.errno.orElse r.errno⟩

/-- The loop of `ext2_truncate` over the direct blocks from `i - 1` down. -/
def truncDirect (lastblock : ℤ) : ℕ → Released → Released
  | 0,r => r
  | i+1,r =>
    if (i : ℤ)≤lastblock then r
    else
      let bn := r.state.db i
      if bn=0 then truncDirect lastblock i r
      else
        truncDirect lastblock i
          ⟨{ r.state with db := Function.update r.state.db i 0 }.blkfree g bn g.fsize,
            r.count+g.btodb g.fsize,r.errno⟩

namespace State

variable (env : Env) (s : State)

/-- The block that `length` cuts through is there and cleared behind it. -/
def truncPartial (length : ℕ) :
    Except Stop (State × Errno) :=
  let offset := length%g.blocksize
  if offset=0 then .ok (s,.ok)
  else match s.balloc g env (length/g.blocksize) offset with
    | .error x => .error x
    | .ok (s,e) =>
      if e≠.ok then .ok (s,e)
      -- `bzero` of `blksize - offset` bytes, then the buffer is written
      else if g.fsize<offset then .error .bounds
      else .ok (s.tick,.ok)

def truncDone (length count : ℕ) : State :=
  { s with size := length, blocks := if s.blocks-count<0 then 0 else s.blocks-count }

/-- Shortening a file, after `ext2_discard_prealloc`. The pointers are cleared for `ext2_update` and
put back before the blocks are freed; `allerror` is what the second `buf_invalidateblks` returns. -/
def shrink (length : ℕ) : Except Stop (State × Errno) :=
  match s.tick.truncPartial g env length with
  | .error x => .error x
  | .ok (s,e) =>
    if e≠.ok then .ok (s,e)
    else
      let lastblock : ℤ := ((length+g.blocksize-1)/g.blocksize : ℕ)-1
      let s := s.tick.tick
      let allerror : Errno := if env.io (s.clock-1) then .ok else .eio
      match truncRoots g env lastblock 3 ⟨s,0,allerror⟩ with
      | .error x => .error x
      | .ok (r,true) => .ok (r.state.truncDone length r.count,r.errno)
      | .ok (r,false) =>
        let r := truncDirect g lastblock 12 r
        if 0≤lastblock ∧ r.state.db lastblock.toNat≠0 ∧ g.fsize=0 then .error .newspace
        else .ok (r.state.truncDone length r.count,r.errno)

/-- The part of `ext2_truncate` that lengthens a file. -/
def extend (length : ℕ) : Except Stop (State × Errno) :=
  match s.balloc g env ((length-1)/g.blocksize) ((length-1)%g.blocksize+1) with
  | .error x => .error x
  | .ok (s,e) =>
    if e≠.ok then .ok (s,e)
    else .ok ({ s.tick.tick with size := length },if env.io (s.clock+1) then .ok else .eio)

def clearBytes (n : ℕ) (word : ℤ) : ℤ :=
  if n<4 then word-word%(256^n : ℕ) else 0

/-- `bzero` of the text of a short link, which stands in `i_db` and `i_ib`. -/
def clearShortlink : State :=
  { s with
    db := fun i => clearBytes (s.size-4*i) (s.db i)
    ib := fun i => clearBytes (s.size-4*(i+12)) (s.ib i)
    size := 0 }

def truncate (length : ℕ) : Except Stop (State × Errno) :=
  if g.maxfilesize<length then .ok (s,.efbig)
  else if env.symlink ∧ s.size<g.maxsymlen then
    .ok (s.clearShortlink.tick,if env.io s.clock then .ok else .eio)
  else if s.size=length then .ok (s.tick,if env.io s.clock then .ok else .eio)
  else if s.size<length then s.discardPrealloc.extend g env length
  else s.discardPrealloc.shrink g env length

end State

end Ext2fsX.Blocks
