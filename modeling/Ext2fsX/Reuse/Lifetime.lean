import Ext2fsX.Framework.Generations
import Ext2fsX.Framework.Machine
import Ext2fsX.Mount.InodeTable
import Ext2fsX.Reuse.Inactive

namespace Ext2fsX.Reuse

open Framework

/-- The vnode keeps the type it was made with; `idle`: `ext2_inactive` has run since its last use.
-/
structure Core where
  ip : Inode
  dev : Bool
  idle : Bool

/-- `struct ufid`, with the incarnation it was made for. -/
structure Handle where
  gen : UInt32
  incarnation : ℕ
deriving DecidableEq

structure Number where
  core : Option Core
  used : Bool
  incarnation : ℕ
  handles : List Handle

def Env.Documented (env : Env) : Prop :=
  (1≤(env.random 0).toNat ∧ (env.random 0).toNat≤2^30) ∧
    (1≤(env.random 1).toNat ∧ (env.random 1).toNat≤2^30)

deriving instance Decidable for Env.Documented

inductive Act where
  | load (env : Env)
  | create (env : Env) (q : Request)
  | use (u : Use)
  | unlink
  | update (env : Env) (now : Time)
  | inactive (env : Env) (r : Rest)
  | reclaim (env : Env) (now : Time)
  | vptofh

/-- `ext2_vget_internal`, which returns the vnode of an inode that is in core. -/
def Number.vget (env : Env) (createmode : UInt16) (read : Slot) (x : Number) : Core :=
  match x.core with
  | some c => { c with idle := false }
  | none =>
    let ip := Reuse.vget env createmode read
    ⟨ip,isDev ip.mode,false⟩

/-- `ext2_makeinode` or `ext2_mkdir` up to its first `ext2_update`. -/
def Request.build (env : Env) (q : Request) (c : Core) (slot : Slot) : Inode × Slot :=
  Reuse.update env (env.time 1) c.dev
    (setup env (q.setMode env) q.nlink (q.owner env) (vallocBody env c.ip),slot)

/-- `read` is what `ext2_vget_internal` finds on disk, `slot` what `ext2_update` writes over. -/
def act (a : Act) (read : Slot) (x : Number) (slot : Slot) : Option (Number × Slot) :=
  match a with
  | .load env =>
    if env.Documented then some ({ x with core := some (x.vget env 0 read) },slot) else none
  | .create env q =>
    if env.Documented ∧ x.used=false then
      let c := x.vget env q.mode read
      let y := q.build env c slot
      some ({ x with
        core := some { c with ip := y.1 }
        used := true
        incarnation := x.incarnation+1 },y.2)
    else none
  | .use u =>
    x.core.map fun c => ({ x with core := some { c with ip := u.apply c.ip, idle := false } },slot)
  | .unlink =>
    x.core.map fun c =>
      ({ x with
        core := some { c with ip := { c.ip with nlink := c.ip.nlink-1 }, idle := false } },slot)
  | .update env now =>
    x.core.map fun c =>
      let y := Reuse.update env now c.dev (c.ip,slot)
      ({ x with core := some { c with ip := y.1 } },y.2)
  | .inactive env r =>
    x.core.bind fun c =>
      if r.rdonly=false then
        let l := Reuse.inactive env r c.dev (c.ip,slot)
        some ({ x with
          core := some { c with ip := l.ip, idle := true }
          used := x.used && !l.freed },l.slot)
      else none
  | .reclaim env now =>
    x.core.bind fun c =>
      if c.idle then
        let y := if c.ip.flag.lazymod then Reuse.update env now c.dev
          ({ c.ip with flag := { c.ip.flag with modified := true } },slot) else (c.ip,slot)
        some ({ x with core := none },y.2)
      else none
  | .vptofh =>
    x.core.bind fun c =>
      if c.ip.mode≠0 then
        some ({ x with handles := ⟨c.ip.gen,x.incarnation⟩::x.handles },slot)
      else none

/-- The inodes of a writable mount, and the slots of its inode table. -/
structure Volume where
  number : ℕ → Number
  table : Mount.Slot → Slot

variable (fs : Mount.Fs)

/-- What `ext2_vget_internal` reads for a number; behind the end of the buffer that is `wild`. -/
def Volume.read (s : Volume) (wild : Slot) (ino : ℕ) : Slot :=
  if (fs.vgetSlot ino).offset+128≤fs.blocksize then s.table (fs.vgetSlot ino) else wild

structure Event where
  ino : ℕ
  act : Act
  wild : Slot

deriving instance Decidable for Mount.Fs.ValidIno

def Event.next (e : Event) (s : Volume) : Option Volume :=
  if fs.ValidIno e.ino then
    (Reuse.act e.act (s.read fs e.wild e.ino) (s.number e.ino) (s.table (fs.updateSlot e.ino))).map
      fun r =>
        { number := Function.update s.number e.ino r.1
          table := Function.update s.table (fs.updateSlot e.ino) r.2 }
  else none

def Slot.Live (ei : Slot) : Prop := ei.linksCount≠0 ∧ ei.mode≠0

/-- After the mount nothing is in core and the bitmap has the bits of all files. -/
structure Volume.Fresh (s : Volume) : Prop where
  core : ∀ x,(s.number x).core=none
  incarnation : ∀ x,(s.number x).incarnation=0
  handles : ∀ x,(s.number x).handles=[]
  used : ∀ x,fs.ValidIno x → (s.table (fs.vgetSlot x)).Live → (s.number x).used=true

def history : Machine Volume Event where
  init := Volume.Fresh fs
  next := Event.next fs

/-- `ext2_fhtovp` for a handle of the number; `none` is an error. -/
def fhtovp (s : Volume) (env : Env) (wild : Slot) (ino : ℕ) (h : Handle) :
    Option Inode :=
  if ino<2 ∨ fs.groupsCount*fs.ipg < ino then none
  else
    let ip := ((s.number ino).vget env 0 (s.read fs wild ino)).ip
    if ip.mode=0 ∨ ip.gen≠h.gen ∨ ip.links≤0 then none else some ip

end Ext2fsX.Reuse
