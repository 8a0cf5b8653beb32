import Ext2fsX.Directory.Format

namespace Ext2fsX.Directory

open Framework

/-- `cn_nameiop`; the component is the last one of its path and the parent is wanted. -/
inductive NameiOp where
  | lookup
  | create
  | delete
  | rename
  deriving DecidableEq

inductive Errno where
  | ok
  | ejustreturn
  | enoent
  | eio
  | enospc
  | eacces
  | eperm
  | eisdir
  deriving DecidableEq

/-- The panics, an access outside a buffer, a loop without progress, and the conversion to an index,
which is not followed further. -/
inductive Stop where
  | dirbad
  | newblk
  | compact1
  | compact2
  | fault
  | hang
  | indexed

structure Name where
  bytes : List UInt8
  ne_nil : bytes≠[]
  short : bytes.length≤255
  deriving DecidableEq

/-- The blocks that cannot be read, whether `vnode_authorize`, `EXT2_VGET` (with the sticky test)
and `EXT2_WRITE` succeed, and the bytes on the stack. -/
structure Env where
  bad : List ℕ
  authorized : Bool
  vget : Bool
  written : Bool
  junk : Bytes

/-- `struct dcache`. A record whose name length has been cleared has no name. -/
structure DCache where
  name : List UInt8
  offset : ℕ
  count : ℕ
  reclen : ℕ
  refct : ℕ

/-- The directory: its bytes, and the fields of its in-core inode. `i_offset` and `i_endoff` are
`doff_t`, an int32: an `offset` from 2^31 on is a negative one there. -/
structure Dir where
  data : Bytes
  size : ℕ
  nlink : ℕ
  number : ℕ
  count : ℕ
  endoff : ℕ
  diroff : ℕ
  offset : ℕ
  ino : ℕ
  reclen : ℕ
  lastnamei : NameiOp
  dcache : List DCache

inductive SlotStatus where
  | none
  | compact
  | found
  deriving DecidableEq

/-- `struct ext2fs_searchslot`; an offset of -1 is no offset. -/
structure SearchSlot where
  status : SlotStatus
  offset : Option ℕ
  size : ℕ
  freespace : ℕ
  needed : ℕ

/-- The variables of the search loop. `offset` is `dp->i_offset`. -/
structure Search where
  offset : ℕ
  entryoffsetinblock : ℕ
  prevoff : ℕ
  enduseful : ℕ
  slot : SearchSlot

variable (cfg : Config)

def Config.roundup (x : ℕ) : ℕ := (x+cfg.blocksize-1)/cfg.blocksize*cfg.blocksize

/-- `(doff_t)x` as the end of a search. From 2^31 on it is negative, and no offset is before it. -/
def doff (x : ℕ) : ℕ := if x<2147483648 then x else 0

def dirbadentry (de : Record) (entryoffsetinblock : ℕ) : Bool :=
  if de.recLen<dirRecLen 1 then true
  else if de.recLen%4≠0 then true
  else if de.recLen<dirRecLen de.name.length then true
  else if cfg.blocksize<entryoffsetinblock+de.recLen then true
  else decide (cfg.inodesCount<de.inode)

/-- The search for space, on the record at `offset`. -/
def SearchSlot.see (ss : SearchSlot) (offset : ℕ) (ep : Record) : SearchSlot :=
  if ss.status=.found then ss
  else
    let size := ep.recLen-ep.used
    if size=0 then ss
    else if ss.needed ≤ size then
      { ss with status := .found, offset := some offset, size := ep.recLen }
    else if ss.status=.none then
      let start := ss.offset.getD offset
      let freespace := ss.freespace+size
      if ss.needed≤freespace then
        { ss with
          status := .compact, offset := some start, freespace := freespace
          size := offset+ep.recLen-start }
      else { ss with offset := some start, freespace := freespace }
    else ss

inductive Scan where
  | next (s : Search)
  | found (s : Search)
  | stop (x : Stop)

/-- How many bytes of a record a pass reads: up to its length, up to its name length if it is live
or checked, and the name if it can be the right one. -/
def Record.touched (name : List UInt8) (entryoffsetinblock : ℕ) (ep : Record) : ℕ :=
  if ep.recLen=0 then 6
  else if cfg.dirchk && (decide (ep.recLen<dirRecLen 1) || decide (ep.recLen%4≠0)) then 6
  else if cfg.dirchk && dirbadentry cfg ep entryoffsetinblock then 7
  else if ep.live && decide (ep.name.length=name.length) then 8+name.length
  else if cfg.dirchk || ep.live then 7
  else 6

def Record.mangled (entryoffsetinblock : ℕ) (ep : Record) : Bool :=
  decide (ep.recLen=0) || (cfg.dirchk && dirbadentry cfg ep entryoffsetinblock)

/-- The body of the search loop once the block is there. -/
def Search.scan (m : Bytes) (name : List UInt8) (s : Search) : Scan :=
  let bs := cfg.blocksize
  let ep := readRecord m s.offset
  if bs < s.entryoffsetinblock+ep.touched cfg name s.entryoffsetinblock then .stop .fault
  else if ep.mangled cfg s.entryoffsetinblock then
    if cfg.rdonly then
      let i := bs-s.entryoffsetinblock%bs
      .next { s with
        offset := s.offset+i, entryoffsetinblock := s.entryoffsetinblock+i }
    else .stop .dirbad
  else
    let s := { s with slot := s.slot.see s.offset ep }
    if ep.live && decide (ep.name=name) then .found s
    else .next { s with
      prevoff := s.offset, offset := s.offset+ep.recLen
      entryoffsetinblock := s.entryoffsetinblock+ep.recLen
      enduseful := if ep.live then s.offset+ep.recLen else s.enduseful }

def SearchSlot.restart (ss : SearchSlot) : SearchSlot :=
  if ss.status=.none then { ss with offset := none, freespace := 0 } else ss

def Search.enterBlock (s : Search) : Search :=
  let eoib := if s.offset%cfg.blocksize=0 then 0 else s.entryoffsetinblock
  { s with
    entryoffsetinblock := eoib
    slot := if eoib%cfg.blocksize=0 then s.slot.restart else s.slot }

inductive Searched where
  | found (s : Search)
  | notfound (s : Search)
  | unread (s : Search)
  | stop (x : Stop)

/-- From `searchloop:` on. Every pass moves on by at least one byte. From 2^31 on `i_offset` has
wrapped, and the loop goes on outside the directory. -/
def searchloop (m : Bytes) (bad : List ℕ) (name : List UInt8) (endsearch : ℕ) :
    ℕ → Search → Searched
  | 0,s => .notfound s
  | fuel+1,s =>
    if s.offset<endsearch then
      if s.offset%cfg.blocksize=0 ∧ s.offset/cfg.blocksize∈bad then .unread s
      else match (s.enterBlock cfg).scan cfg m name with
        | .next s =>
          if 2147483648 ≤ s.offset then .stop .fault else searchloop m bad name endsearch fuel s
        | .found s => .found s
        | .stop x => .stop x
    else .notfound s

def NameiOp.wantsSlot : NameiOp → Bool
  | create | rename => true
  | lookup | delete => false

variable (d : Dir) (op : NameiOp)

/-- `i_diroff` is 0 or behind the end; a negative one is larger than the unsigned `i_size`. -/
def Dir.restarts : Prop := d.diroff=0 ∨ d.size<d.diroff ∨ 2147483648 ≤ d.diroff

deriving instance Decidable for Dir.restarts

def Dir.searchStart (name : List UInt8) : Search × Bool :=
  let slot : SearchSlot :=
    if op.wantsSlot then ⟨.none,none,0,0,dirRecLen name.length⟩ else ⟨.found,none,0,0,0⟩
  if op≠.lookup ∨ d.restarts then (⟨0,0,0,0,slot⟩,false)
  else (⟨d.diroff,d.diroff%cfg.blocksize,d.diroff,0,slot⟩,true)

def Dir.search (name : List UInt8) (bad : List ℕ) :
    Searched :=
  let (s,twice) := d.searchStart cfg op name
  if s.entryoffsetinblock≠0 ∧ s.offset/cfg.blocksize∈bad then .unread s
  else
    let endsearch := doff (cfg.roundup d.size)
    match searchloop cfg d.data bad name endsearch endsearch s with
    | .notfound s =>
      if twice then
        searchloop cfg d.data bad name d.diroff d.diroff { s with offset := 0 }
      else .notfound s
    | r => r

/-- From `found:` in `ext2_lookupi`; `vpp` says that the caller wants the vnode. -/
def Dir.found (vpp : Bool) (env : Env) (s : Search) :
    Except Stop (Dir × Errno) :=
  let ep := readRecord d.data s.offset
  let need := s.entryoffsetinblock+dirRecLen ep.name.length
  if d.size<need ∧ cfg.rdonly=false then .error .dirbad
  else
    let d := { d with
      offset := s.offset, ino := ep.inode, reclen := ep.recLen
      size := if d.size<need then need else d.size
      diroff := if op=.lookup then s.offset-s.offset%cfg.blocksize else d.diroff }
    match op with
    | .delete =>
      if vpp && !env.authorized then .ok (d,.eacces)
      else
        let d := { d with count := if s.offset%cfg.blocksize=0 then 0 else s.offset-s.prevoff }
        if d.number=d.ino then .ok (d,.ok)
        else if vpp && !env.vget then .ok (d,.eperm)
        else .ok (d,.ok)
    | .rename =>
      if vpp && !env.authorized then .ok (d,.eacces)
      else if d.number=d.ino then .ok (d,.eisdir)
      else if vpp && !env.vget then .ok (d,.eperm)
      else .ok (d,.ok)
    | .lookup | .create =>
      if d.number≠d.ino && (vpp && !env.vget) then .ok (d,.eperm) else .ok (d,.ok)

/-- From `notfound:` in `ext2_lookupi`. -/
def Dir.notfound (env : Env) (s : Search) : Dir × Errno :=
  let d := { d with offset := s.offset }
  if op.wantsSlot ∧ d.nlink≠0 then
    if env.authorized then
      match s.slot.status,s.slot.offset with
      | .compact,some o | .found,some o =>
        ({ d with
          offset := o, count := s.slot.size
          endoff := cfg.roundup (max s.enduseful (o+s.slot.size)) },.ejustreturn)
      | _,_ =>
        ({ d with
          offset := cfg.roundup d.size, count := 0
          endoff := cfg.roundup (cfg.roundup d.size) },.ejustreturn)
    else (d,.eacces)
  else (d,.enoent)

variable (name : Name)

/-- `ext2_lookupi` on a directory without an index. -/
def Dir.lookupi (vpp : Bool) (env : Env) :
    Except Stop (Dir × Errno) :=
  let d := { d with lastnamei := op }
  match d.search cfg op name.bytes env.bad with
  | .found s => d.found cfg op vpp env s
  | .notfound s => .ok (d.notfound cfg op env s)
  | .unread s => .ok ({ d with offset := s.offset },.eio)
  | .stop x => .error x

/-- `ext2_dcacheget`. The chains differ only in the names they hold. -/
def Dir.dcacheget : Option DCache :=
  d.dcache.find? (fun c => c.name=name.bytes)

/-- Changes the first record of this name, or takes it out. -/
def editName (name : List UInt8) (f : DCache → Option DCache) : List DCache → List DCache
  | [] => []
  | c::cs =>
    if c.name=name then
      match f c with
      | some c => c::cs
      | none => cs
    else c::editName name f cs

def DCache.fill (c : DCache) : DCache :=
  { c with offset := d.offset, count := d.count, reclen := d.reclen, refct := c.refct+1 }

def Dir.dcachesave : Dir :=
  { d with
    dcache :=
      if (d.dcacheget name).isSome then editName name.bytes (fun c => some (c.fill d)) d.dcache
      else DCache.fill d ⟨name.bytes,0,0,0,0⟩::d.dcache }

def Dir.dcacherem : Dir :=
  let drop (c : DCache) : Option DCache :=
    if c.refct-1=0 then none else some { c with name := [], refct := c.refct-1 }
  { d with dcache := editName name.bytes drop d.dcache }

/-- `ext2_lookup` of a name that is not in the name cache. -/
def Dir.lookup (env : Env) :
    Except Stop (Dir × Errno) :=
  match d.lookupi cfg op name true env with
  | .error x => .error x
  | .ok (d,e) =>
    if (op=.delete ∨ op=.rename) ∧ (e=.ok ∨ e=.ejustreturn) then .ok (d.dcachesave name,e)
    else .ok (d,e)

end Ext2fsX.Directory
