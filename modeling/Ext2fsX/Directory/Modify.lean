import Ext2fsX.Directory.Lookup

namespace Ext2fsX.Directory

open Framework

variable (cfg : Config)

/-- The inode a new or rewritten entry points to. -/
structure Target where
  number : ℕ
  fileType : UInt8
  pos : 0<number
  le : number ≤ cfg.inodesCount

def sub32 (a b : ℕ) : ℕ := (a+4294967296-b)%4294967296

/-- The variables of the compaction loop; `ep` and `loc` count from `dirbuf`. -/
structure Compact where
  data : Bytes
  ep : ℕ
  loc : ℕ
  dsize : ℕ
  spacefree : ℕ

/-- `bcopy` needs both its ranges inside the buffer, which ends `room` bytes after `dirbuf`. -/
def Compact.step (base room : ℕ) (c : Compact) : Except Stop Compact :=
  if room < c.loc+8 ∨ room < c.ep+8 then .error .fault
  else
    let live := (readRecord c.data (base+c.ep)).live
    let data :=
      if live then c.data.store (base+c.ep+4) (Bytes.enc16 c.dsize) else c.data
    let ep := if live then c.ep+c.dsize else c.ep
    let spacefree := if live then c.spacefree else c.spacefree+c.dsize
    let nep := readRecord data (base+c.loc)
    let dsize := dirRecLen nep.name.length
    if room < c.loc+dsize ∨ room<ep+dsize then .error .fault
    else .ok {
      data := data.copy (base+c.loc) (base+ep) dsize
      ep := ep
      loc := c.loc+nep.recLen
      dsize := dsize
      spacefree := spacefree+sub32 nep.recLen dsize }

/-- `for (loc = ep->rec_len; loc < dp->i_count; )`. -/
def Compact.loop (base room count : ℕ) : ℕ → Compact → Except Stop Compact
  | 0,c => if c.loc < count then .error .hang else .ok c
  | fuel+1,c =>
    if c.loc < count then
      match c.step base room with
      | .error x => .error x
      | .ok c => Compact.loop base room count fuel c
    else .ok c

/-- The new entry after the compaction. -/
def Compact.place (base room : ℕ) (newdir : Record) (junk : Bytes) (c : Compact) :
    Except Stop Bytes :=
  let newentrysize := dirRecLen newdir.name.length
  if room < c.ep+8 then .error .fault
  else if (readRecord c.data (base+c.ep)).inode=0 then
    if c.spacefree+c.dsize<newentrysize then .error .compact1
    else if room < c.ep+newentrysize then .error .fault
    else .ok (c.data.store (base+c.ep)
      (Record.image { newdir with recLen := c.spacefree+c.dsize } junk))
  else if c.spacefree<newentrysize then .error .compact2
  else if room < c.ep+c.dsize+newentrysize then .error .fault
  else .ok ((c.data.store (base+c.ep+4) (Bytes.enc16 c.dsize)).store (base+(c.ep+c.dsize))
    (Record.image { newdir with recLen := c.spacefree } junk))

/-- The space for the new entry in the block at `base`, and the entry in it. -/
def compact (base room count : ℕ) (newdir : Record) (junk m : Bytes) : Except Stop Bytes :=
  let ep := readRecord m base
  let dsize := dirRecLen ep.name.length
  if room<8 then .error .fault
  else match Compact.loop base room count count ⟨m,0,ep.recLen,dsize,sub32 ep.recLen dsize⟩ with
    | .error x => .error x
    | .ok c => c.place base room newdir junk

variable (d : Dir)

/-- `EXT2_WRITE` of a new entry at `offset`; what is new in the directory is zero. -/
def Dir.write (offset : ℕ) (image : List UInt8) : Dir :=
  { d with
    data := Bytes.store (fun i => if i<d.size then d.data i else 0) offset image
    size := cfg.roundup (max d.size (offset+image.length)) }

/-- `ext2_direnter` up to where it gives `IN_LOOK` up; the last component is the offset to truncate
to. -/
def Dir.insert (name : Name) (ip : Target cfg) (env : Env) :
    Except Stop (Dir × Errno × Option ℕ) :=
  let bs := cfg.blocksize
  let newdir : Record := ⟨ip.number,0,ip.fileType,name.bytes⟩
  if d.count=0 then
    if d.offset%bs≠0 then .error .newblk
    else if d.size/bs=1 ∧ cfg.dirIndex then
      if 0∈env.bad then .ok (d,.eio,none) else .error .indexed
    -- a negative offset is refused by EXT2_WRITE
    else if env.written ∧ d.offset<2147483648 then
      .ok (d.write cfg d.offset (Record.image { newdir with recLen := bs } env.junk),.ok,none)
    else .ok (d,.enospc,none)
  else
    let d := { d with size := max d.size (d.offset+d.count) }
    if d.offset/bs∈env.bad then .ok (d,.eio,none)
    else match compact d.offset (bs-d.offset%bs) d.count newdir env.junk d.data with
      | .error x => .error x
      | .ok data =>
        .ok ({ d with data := data },.ok,
          if d.endoff≠0 ∧ d.endoff<d.size then some d.endoff else none)

def Dir.enter (op : NameiOp) (name : Name) (ip : Target cfg) (env : Env) :
    Except Stop (Dir × Errno × Option ℕ) :=
  if d.lastnamei=.create ∧ dirRecLen name.bytes.length≤d.count then d.insert cfg name ip env
  else match d.lookupi cfg op name false env with
    | .error x => .error x
    | .ok (d,e) =>
      if e=.ok ∨ e=.ejustreturn then d.insert cfg name ip env else .ok (d,e,none)

def Dir.truncate (length : ℕ) : Dir :=
  { d with data := fun i => if i < min d.size length then d.data i else 0, size := length }

def Dir.direnter (op : NameiOp) (name : Name) (ip : Target cfg)
    (env : Env) : Except Stop (Dir × Errno) :=
  match d.enter cfg op name ip env with
  | .error x => .error x
  | .ok (d,e,none) => .ok (d,e)
  | .ok (d,e,some length) => .ok (d.truncate length,e)

def Dir.copydcache (c : DCache) : Dir :=
  { d with offset := c.offset, count := c.count, reclen := c.reclen }

/-- `ext2_dirremove` and `ext2_dirrewrite_nolock` start from the cached search or a new one. -/
def Dir.recall (op : NameiOp) (name : Name) (env : Env) :
    Except Stop (Dir × Errno) :=
  match d.dcacheget name with
  | some c => .ok ((d.copydcache c).dcacherem name,.ok)
  | none => d.lookupi cfg op name false env

/-- The part of `ext2_dirremove` that removes the entry. -/
def Dir.erase (env : Env) : Except Stop (Dir × Errno) :=
  let bs := cfg.blocksize
  if d.count=0 then
    if d.offset/bs∈env.bad then .ok (d,.eio)
    else if bs<d.offset%bs+4 then .error .fault
    else .ok ({ d with data := d.data.store d.offset (Bytes.enc32 0) },.ok)
  else if d.offset<d.count then .error .fault
  else
    let offset := d.offset-d.count
    if offset/bs∈env.bad then .ok (d,.eio)
    else if bs<offset%bs+6 then .error .fault
    else .ok ({ d with
      data := d.data.store (offset+4)
        (Bytes.enc16 ((readRecord d.data offset).recLen+d.reclen)) },.ok)

def Dir.dirremove (name : Name) (env : Env) : Except Stop (Dir × Errno) :=
  match d.recall cfg .delete name env with
  | .error x => .error x
  | .ok (d,e) => if e=.ok then d.erase cfg env else .ok (d,e)

/-- The part of `ext2_dirrewrite_nolock` that rewrites the entry. -/
def Dir.rewrite (ip : Target cfg) (env : Env) :
    Except Stop (Dir × Errno) :=
  if d.offset/cfg.blocksize∈env.bad then .ok (d,.eio)
  else if cfg.blocksize<d.offset%cfg.blocksize+8 then .error .fault
  else .ok ({ d with
    data := (d.data.store d.offset (Bytes.enc32 ip.number)).store (d.offset+7) [ip.fileType] },.ok)

def Dir.dirrewrite (name : Name) (ip : Target cfg) (env : Env) :
    Except Stop (Dir × Errno) :=
  match d.recall cfg .rename name env with
  | .error x => .error x
  | .ok (d,e) => if e=.ok ∨ e=.ejustreturn then d.rewrite cfg ip env else .ok (d,e)

end Ext2fsX.Directory
