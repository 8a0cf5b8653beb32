import Ext2fsX.Blocks.Balloc
import Ext2fsX.Framework.Machine
import Ext2fsX.Framework.PointerTree

namespace Ext2fsX.Alloc

open Framework
open Function (update)
open Blocks (Geometry getlbns)

/-- The index in `i_db` and the `i_ib` behind it, and the indices in the indirect blocks below,
innermost first. An indirect block has the name of the pointer to it. -/
abbrev Slot := List ℕ

variable (g : Geometry)

def target (lbn : ℕ) : Option (ℕ × List ℕ) :=
  if lbn<12 then some (lbn,[])
  else (getlbns g.nindir lbn).map (fun x => (12+x.1,x.2.map Prod.snd))

/-- A thread in `ext2_balloc2` or (`pageout`) `ext2_blkalloc`: at the pointer `slot`, with `rest`
still to follow. `got` is `allociblk`, `newRoot` whether `allocib` is set. -/
structure Work where
  pageout : Bool
  allocBuf : Bool
  slot : Slot
  rest : List ℕ
  got : List ℕ
  newRoot : Bool

namespace Work

def inInode (w : Work) : Bool := w.slot.tail.isEmpty

/-- `ext2_blkalloc` casts logical numbers to `unsigned`, so it has buffers of its own. -/
def aliased (w : Work) : Bool := w.pageout && !w.inInode

def took (w : Work) (b : ℕ) : Work :=
  if w.pageout && !(w.inInode && w.rest.isEmpty) then { w with got := w.got++[b] } else w

end Work

/-- Where a thread is when it does not have the inode lock. -/
inductive Pc where
  | idle
  | entered (w : Work)
  /-- The pointer was 0, and the lock has been given up before `ext2_alloc`. -/
  | found (w : Work)
  /-- In `ext2_discard_prealloc`. -/
  | freeing (w : Work) (blk n : ℕ)
  /-- In `ext2_new_block`, and after it. -/
  | newing (w : Work)
  | obtained (w : Work) (bno ibn icount : ℕ)
  /-- A block was allocated; its buffer is to be set up, and then the pointer stored. -/
  | filling (w : Work) (b : ℕ)
  | filled (w : Work) (b : ℕ)
  /-- The pointer `b` of a last block is to be stored again. -/
  | restoring (w : Work) (b : ℕ)
  /-- Before and after `buf_meta_bread` of the indirect block of `slot`. -/
  | reading (w : Work)
  | holding (w : Work)
  /-- The pointer is in the buffer, which is to be written. -/
  | writing (w : Work)
  /-- At `fail:`. -/
  | failing (w : Work)

/-- What the rest answers: whether space is lacking, the preferred block, what `ext2_new_block`
finds or (`junk`) leaves, whether the transfer succeeds, whether the last block is a fragment, and
the `content` of a buffer read under a wrong number. -/
structure Answer where
  full : Bool
  bpref : ℕ
  grant : Option (ℕ × ℕ)
  junk : ℕ × ℕ
  io : Bool
  frag : Bool
  content : ℕ → ℕ

/-- The inode and its indirect blocks, in two families of buffers; who holds a buffer; and the
blocks marked used for the file. -/
structure State where
  ptr : Bool → Slot → ℕ
  loaded : Slot → Bool
  owner : Bool → Slot → Option ℕ
  preallocBlock : ℕ
  preallocCount : ℕ
  used : ℕ → Bool
  th : ℕ → Pc

namespace State

variable (s : State) (t : ℕ)

def setPc (pc : Pc) : State := { s with th := update s.th t pc }

variable (w : Work)

def look : ℕ := s.ptr w.aliased w.slot

def store (b : ℕ) : State :=
  { s with ptr := update s.ptr w.aliased (update (s.ptr w.aliased) w.slot b) }

/-- `buf_clear` of the buffer for the indirect block that `slot` is to point to. -/
def clear : State :=
  { s with
    ptr := update s.ptr w.pageout (clearUnder (s.ptr w.pageout) w.slot)
    loaded := if w.pageout then update s.loaded w.slot true else s.loaded }

def brelse : State :=
  { s with owner := fun a q => if a=w.aliased ∧ q=w.slot.tail then none else s.owner a q }

def freeBlocks (p : ℕ → Bool) : State := { s with used := fun b => s.used b && !p b }

def storeAt (b : ℕ) : State :=
  (s.store w b).setPc t
    (if w.inInode then
      if w.rest.isEmpty then .idle else .reading { w with newRoot := true }
    else .writing w)

def allocDone (b : ℕ) : State :=
  if !w.rest.isEmpty || (w.inInode && w.allocBuf) then s.setPc t (.filling (w.took b) b)
  else s.storeAt t (w.took b) b

def allocFail : State := (s.brelse w).setPc t (if w.aliased then .failing w else .idle)

def allocEnd (bno : ℕ) : State :=
  if 0<bno ∧ bno<2^31 then s.allocDone t w bno else s.allocFail t w

variable (ans : Answer)

/-- `ext2_alloc` up to where the lock is given up. -/
def allocStart : State :=
  if ans.full then s.allocFail t w
  else if s.preallocCount≠0 ∧ (ans.bpref=s.preallocBlock ∨ ans.bpref+1=s.preallocBlock) then
    { s with
      preallocBlock := s.preallocBlock+1
      preallocCount := s.preallocCount-1 }.allocEnd t w s.preallocBlock
  else if s.preallocCount≠0 then
    { s with preallocCount := 0 }.setPc t (.freeing w s.preallocBlock s.preallocCount)
  else s.setPc t (.newing w)

/-- The first look at a pointer of the inode. -/
def enter : State :=
  if s.look w=0 then
    if w.pageout then s.setPc t (.found w) else s.allocStart t w ans
  else if !w.rest.isEmpty then s.setPc t (.reading w)
  else if w.allocBuf && ans.frag then s.setPc t (.restoring w (s.look w))
  else s.setPc t .idle

/-- `ext2_new_block`: the block it returns and the run behind it were free. -/
def newBlock : Option State :=
  match ans.grant with
  | none => some (s.setPc t (.obtained w 0 ans.junk.1 ans.junk.2))
  | some (b,n) =>
    if b≠0 ∧ (List.range (n+1)).all (fun i => !s.used (b+i)) then
      some ({ s with used := fun x => s.used x || (decide (b≤x) && decide (x≤b+n)) }.setPc t
        (.obtained w b (b+1) n))
    else none

def fill (b : ℕ) (ans : Answer) : State :=
  if w.rest.isEmpty then s.setPc t (.filled w b)
  else if ans.io then (s.clear w).setPc t (.filled w b)
  else if w.pageout then (s.brelse w).setPc t (.failing w)
  else ((s.freeBlocks (· == b)).brelse w).setPc t .idle

/-- `buf_meta_bread`, which waits for the buffer. -/
def metaBread : Option State :=
  match w.rest with
  | [] => none
  | o::rest =>
    if s.owner w.pageout w.slot≠none then none
    else if ans.io=false then some (s.setPc t (if w.pageout then .failing w else .idle))
    else
      let s :=
        if w.pageout && !s.loaded w.slot then
          { s with
            ptr := update s.ptr true (fun r =>
              if r.tail=w.slot then ans.content (r.headD 0) else s.ptr true r)
            loaded := update s.loaded w.slot true }
        else s
      some ({ s with
        owner := fun a q => if a=w.pageout ∧ q=w.slot then some t else s.owner a q }.setPc t
          (.holding { w with slot := o::w.slot, rest := rest }))

def lookIn : State :=
  if s.look w=0 then
    if w.pageout && w.rest.isEmpty then s.setPc t (.found w) else s.allocStart t w ans
  else (s.brelse w).setPc t (if w.rest.isEmpty then .idle else .reading w)

/-- `fail:` of `ext2_blkalloc`. -/
def fail : State :=
  let s := s.freeBlocks (fun b => w.got.contains b)
  (if w.newRoot then
    { s with
      ptr := update s.ptr false
        (update (s.ptr false) [w.slot.getLastD 0] 0) }
  else s).setPc t .idle

/-- A thread goes on, to where it next gives the lock up. -/
def run : Option State :=
  match s.th t with
  | .idle => none
  | .entered w => some (s.enter t w ans)
  | .found w => some (s.allocStart t w ans)
  | .freeing w blk n =>
    some ((s.freeBlocks (fun b => decide (blk≤b) && decide (b<blk+n))).setPc t (.newing w))
  | .newing w => s.newBlock t w ans
  | .obtained w bno ibn icount =>
    some ({ s with preallocBlock := ibn, preallocCount := icount }.allocEnd t w bno)
  | .filling w b => some (s.fill t w b ans)
  | .filled w b => some (s.storeAt t w b)
  | .restoring w b => some (if ans.io then (s.store w b).setPc t .idle else s.setPc t .idle)
  | .reading w => s.metaBread t w ans
  | .holding w => some (s.lookIn t w ans)
  | .writing w =>
    some ((s.brelse w).setPc t (if w.rest.isEmpty then .idle else .reading w))
  | .failing w => some (s.fail t w)

def call (g : Geometry) (lbn : ℕ) (pageout allocBuf : Bool) : Option State :=
  match s.th t with
  | .idle =>
    match target g lbn with
    | none => some s
    | some (k,offs) =>
      some (s.setPc t (.entered ⟨pageout,allocBuf && !pageout,[k],offs,[],false⟩))
  | _ => none

end State

inductive Label where
  | call (t lbn : ℕ) (pageout allocBuf : Bool)
  | run (t : ℕ) (ans : Answer)

/-- The number of pointers to follow below a slot; `none` for what is no slot of the file. -/
def level : Slot → Option ℕ
  | [] => none
  | [k] => if k<15 then some (k-11) else none
  | o::q =>
    match level q with
    | some (n+1) => if o<g.nindir then some n else none
    | _ => none

variable (s : State)

/-- A slot of the file is on a path of pointers from the inode and points to `b`. -/
def Reaches (p : Slot) (b : ℕ) : Prop :=
  (level g p).isSome ∧ Live (s.ptr false) p ∧ s.ptr false p=b

def InWindow (b : ℕ) : Prop :=
  s.preallocBlock≤b ∧ b < s.preallocBlock+s.preallocCount

def Quiet : Prop := ∀ t,s.th t=.idle

def Accounted : Prop :=
  ∀ b,s.used b=true →
    (∃ p,Reaches g s p b ∧ ∀ r,Reaches g s r b → r=p) ∧ ¬InWindow s b ∨
      (∀ p,¬Reaches g s p b) ∧ InWindow s b

/-- The file before the threads start; nobody holds a buffer. -/
structure Start : Prop where
  quiet : Quiet s
  accounted : Accounted g s
  reached : ∀ p b,Reaches g s p b → s.used b=true
  window : ∀ b,InWindow s b → s.used b=true
  bound : ∀ b,s.used b=true → 0<b ∧ b<2^31
  free : ∀ a q,s.owner a q=none

def machine : Machine State Label where
  init := Start g
  next
    | .call t lbn pageout allocBuf,s => s.call t g lbn pageout allocBuf
    | .run t ans,s => s.run t ans

end Ext2fsX.Alloc
