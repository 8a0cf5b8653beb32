import Ext2fsX.Reuse.Codec
import Ext2fsX.Reuse.Inactive
import Ext2fsX.Reuse.Mknod

namespace Ext2fsX.Reuse

open Framework

/-- One round, in which `ext2_balloc` takes the block that is there or allocates `b`. -/
def writeTarget (bsize : UInt64) (b : UInt32) (len : ℕ) (c : Contents) : Contents :=
  let c := if c.block.get 0=0 then
    { c with
      block := setFirst c.block b
      blocks := c.blocks+(bsize/512).toUInt32
      nextAllocBlock := 0
      nextAllocGoal := b } else c
  { c with size := if c.size<.ofNat len then .ofNat len else c.size }

def Env.writing (env : Env) (b : UInt32) (target : List UInt8) : Env :=
  { env with write := writeTarget env.blocksize b target.length }

/-- `i_shortlink`, the bytes of the block pointers. -/
def blockBytes (c : Contents) : List UInt8 := c.block.toList.flatMap fun w => Bytes.enc32 w.toNat

/-- `ext2_readlink`; behind the limit the rounds of `ext2_read` over the direct blocks. -/
def readlink (bsize : ℕ) (data : UInt32 → List UInt8) (c : Contents) : List UInt8 :=
  let isize := (c.size.toNat : ℤ).bmod 4294967296
  if isize<60 then (blockBytes c).take isize.toNat
  else ((List.range ((c.size.toNat+bsize-1)/bsize)).flatMap fun lbn =>
    data (c.block.toList.getD lbn 0)).take c.size.toNat

/-- The blocks freed by `ext2_truncate` to 0; `below` are those `ext2_indirtrunc` frees for a root.
-/
def truncateFrees (below : UInt32 → List UInt32) (lnk : Bool) (c : Contents) : List UInt32 :=
  if lnk ∧ c.size<60 ∨ c.size=0 then []
  else ((c.block.toList.drop 12).reverse.filter (·≠0)).flatMap (fun b => below b++[b])++
    (c.block.toList.take 12).reverse.filter (·≠0)

variable (env : Env) (r : Rest) (below : UInt32 → List UInt32)

/-- The blocks that `ext2_inactive` frees after the last name is removed. -/
def deleteFrees (ip : Inode) (slot : Slot) : List UInt32 :=
  (List.range ip.contents.preallocCount.toNat).map (fun i => ip.contents.preallocBlock+.ofNat i)++
    if (inactive env r false ({ ip with nlink := 0 },slot)).truncated then
      truncateFrees below (isLnk ip.mode) (discardPrealloc ip).contents
    else []

/-- The data blocks after `target` was written to `b` and the rest of the block cleared. -/
def dataWith (bsize : ℕ) (b : UInt32) (target : List UInt8) (data : UInt32 → List UInt8) :
    UInt32 → List UInt8 :=
  if target.length<60 then data
  else fun n => if n=b then target++List.replicate (bsize-target.length) 0 else data n

/-- The link is read as `target`, and deleting it frees `b` if it was used. -/
structure Serves (data : UInt32 → List UInt8) (b : UInt32) (target : List UInt8) (ip : Inode)
    (slot : Slot) : Prop where
  reads : readlink env.blocksize.toNat data ip.contents=target
  frees : deleteFrees env r below ip slot=if target.length<60 then [] else [b]

structure HoldsTarget (b : UInt32) (target : List UInt8) (c : Contents) : Prop where
  size : c.size.toNat=target.length
  block : c.block=if target.length<60 then shortlink target else setFirst (Vector.replicate 15 0) b
  prealloc : c.preallocCount=0

theorem enc32_bytes (a b c d : UInt8) :
    Bytes.enc32 (a.toUInt32 ||| b.toUInt32 <<< 8 ||| c.toUInt32 <<< 16 ||| d.toUInt32 <<< 24).toNat=
      [a,b,c,d] := by
  have ha := a.toNat_lt
  have hb := b.toNat_lt
  have hc := c.toNat_lt
  have hd := d.toNat_lt
  have hv : (a.toUInt32 ||| b.toUInt32 <<< 8 ||| c.toUInt32 <<< 16 ||| d.toUInt32 <<< 24).toNat=
      a.toNat+b.toNat*2^8+c.toNat*2^16+d.toNat*2^24 := by
    change ((a.toNat ||| b.toNat <<< 8%2^32) ||| c.toNat <<< 16%2^32) ||| d.toNat <<< 24%2^32=_
    rw [Nat.mod_eq_of_lt (by rw [Nat.shiftLeft_eq]; omega),
      Nat.mod_eq_of_lt (by rw [Nat.shiftLeft_eq]; omega),
      Nat.mod_eq_of_lt (by rw [Nat.shiftLeft_eq]; omega),or_shift ha,
      or_shift (k := 16) (by omega),or_shift (by omega)]
  have hbyte : ∀ (n : ℕ) (e : UInt8),n%256=e.toNat → UInt8.ofNat n=e := fun n e h =>
    UInt8.toNat_inj.mp ((UInt8.toNat_ofNat' ..).trans h)
  rw [hv,Bytes.enc32,Bytes.enc16,Bytes.enc16,hbyte _ a (by omega),hbyte _ b (by omega),
    hbyte _ c (by omega),hbyte _ d (by omega)]
  rfl

theorem blockBytes_shortlink {c : Contents} {target : List UInt8} (h : c.block=shortlink target) :
    blockBytes c=(List.range 60).map fun i => target.getD i 0 := by
  rw [blockBytes,h,shortlink,Vector.toList_ofFn]
  simp only [List.ofFn_succ,List.ofFn_zero,List.flatMap_cons,enc32_bytes]
  rfl

theorem take_getD {l : List UInt8} {n : ℕ} (h : l.length ≤ n) :
    ((List.range n).map fun i => l.getD i 0).take l.length=l := by
  apply List.ext_getElem
  · simp [h]
  · intro i h1 h2
    simp [h2]

variable {b : UInt32} {target : List UInt8} {c : Contents}

theorem HoldsTarget.reads (h : HoldsTarget b target c) {bsize : ℕ} (hbs : 1024 ≤ bsize)
    (hlen : target.length<1024) (data : UInt32 → List UInt8) :
    readlink bsize (dataWith bsize b target data) c=target := by
  have hint : (c.size.toNat : ℤ).bmod 4294967296=target.length := by
    rw [h.size,Int.bmod_def]
    omega
  unfold readlink dataWith
  dsimp only
  rw [hint]
  by_cases h60 : target.length<60
  · rw [if_pos (by omega),blockBytes_shortlink (h.block.trans (if_pos h60)),Int.toNat_natCast]
    exact take_getD (by omega)
  · have hone : (c.size.toNat+bsize-1)/bsize=1 := by
      rw [h.size]
      exact Nat.div_eq_of_lt_le (by omega) (by omega)
    rw [if_neg (by omega),hone,h.block,if_neg h60,if_neg h60,h.size]
    simp

theorem HoldsTarget.frees (h : HoldsTarget b target c) (hb : b≠0) :
    truncateFrees below true c=if target.length<60 then [] else [b] := by
  have hsize : c.size<60 ↔ target.length<60 := by rw [UInt64.lt_iff_toNat_lt,h.size]; rfl
  unfold truncateFrees
  by_cases h60 : target.length<60
  · rw [if_pos (.inl ⟨rfl,hsize.mpr h60⟩),if_pos h60]
  · have h0 : c.size≠0 := fun h0 => h60 (hsize.mp (h0 ▸ by decide))
    rw [if_neg (by simp [hsize,h60,h0]),if_neg h60,h.block,if_neg h60]
    have hlist : ((Vector.replicate 15 (0 : UInt32)).set 0 b).toList=b::List.replicate 14 0 := rfl
    rw [hlist]
    simp [List.replicate,hb]

theorem HoldsTarget.serves {ip : Inode} (h : HoldsTarget b target ip.contents)
    (hbs : 1024 ≤ env.blocksize.toNat) (hlen : target.length<1024) (hb : b≠0)
    (hlnk : isLnk ip.mode=true) (data : UInt32 → List UInt8) (slot : Slot) :
    Serves env r below (dataWith env.blocksize.toNat b target data) b target ip slot := by
  refine ⟨h.reads hbs hlen data,?_⟩
  have hmode : ip.mode≠0 := fun h0 => by rw [h0] at hlnk; exact absurd hlnk (by decide)
  have ht : (inactive env r false ({ ip with nlink := 0 },slot)).truncated=true := by
    simp [inactive,discardPrealloc,hmode,Inode.links]
  have hsame : HoldsTarget b target (discardPrealloc ip).contents := ⟨h.size,h.block,rfl⟩
  unfold deleteFrees
  rw [h.prealloc,ht,hlnk,if_pos rfl,hsame.frees below hb]
  rfl

theorem isLnk_and (m k : UInt16) (hk : k &&& 0xF000=0xF000) : isLnk (m &&& k)=isLnk m := by
  unfold isLnk
  rw [UInt16.and_assoc,hk]

theorem isLnk_dropSgid (m : UInt16) : isLnk (dropSgid env m)=isLnk m := by
  unfold dropSgid
  split
  · exact isLnk_and m _ (by decide)
  · rfl

variable (mode : UInt16)

theorem symlinkInode_isLnk :
    isLnk (symlinkInode env mode target).mode=isLnk (Request.symlink mode target).mode := by
  refine Eq.trans ?_ (isLnk_dropSgid env _)
  unfold symlinkInode
  split
  · rfl
  · change isLnk (if env.suser then _ else _)=_
    split
    · rfl
    · exact isLnk_and _ _ (by decide)

theorem symlinkInode_holds (b : UInt32) (hlen : target.length<1024) :
    HoldsTarget b target (symlinkInode (env.writing b target) mode target).contents := by
  have hsize : (UInt64.ofNat target.length).toNat=target.length := by
    rw [UInt64.toNat_ofNat']
    omega
  unfold symlinkInode
  by_cases h60 : target.length<60
  · rw [if_pos h60]
    exact ⟨hsize,(if_pos h60).symm,rfl⟩
  have hpos : (0 : UInt64)<.ofNat target.length := by
    rw [UInt64.lt_iff_toNat_lt,hsize]
    exact Nat.lt_of_lt_of_le (by decide) (Nat.le_of_not_lt h60)
  rw [if_neg h60]
  refine ⟨?_,(if_neg h60).symm,rfl⟩
  change (if (0 : UInt64)<.ofNat target.length then _ else _ : UInt64).toNat=_
  rw [if_pos hpos,hsize]

theorem vget_stored {ip : Inode} (x : Slot) (h : HoldsTarget b target ip.contents)
    (hlen : target.length<1024) (hlnk : isLnk ip.mode=true) (hn : ip.nlink≠0) :
    HoldsTarget b target (vget env 0 (i2ei env ip x)).contents ∧
      isLnk (vget env 0 (i2ei env ip x)).mode=true := by
  have hm : (ei2i env (i2ei env ip x)).mode=ip.mode := if_pos hn
  have hk := eq_of_beq hlnk
  have hreg : isReg ip.mode=false := by rw [isReg,hk]; rfl
  have hdir : isDir ip.mode=false := by rw [isDir,hk]; rfl
  have hv : (vget env 0 (i2ei env ip x)).contents=(ei2i env (i2ei env ip x)).contents ∧
      (vget env 0 (i2ei env ip x)).mode=ip.mode := by
    unfold vget
    simp only [hm,hreg,hdir,Bool.or_self,Bool.false_eq_true,if_false,ne_eq,not_true_eq_false]
    split
    · exact ⟨rfl,rfl⟩
    · exact ⟨rfl,hm⟩
  rw [hv.1,hv.2]
  refine ⟨⟨?_,h.block,rfl⟩,hlnk⟩
  have hs : (ei2i env (i2ei env ip x)).contents.size=ip.contents.size.toUInt32.toUInt64 := by
    change (if isReg (ei2i env (i2ei env ip x)).mode then _ else _ : UInt64)=_
    rw [hm,hreg]
    rfl
  rw [hs]
  refine Eq.trans ?_ h.size
  exact Nat.mod_eq_of_lt (by rw [h.size]; omega)

/-- A link is read as it was made, in core and after it was written back and loaded again, and
deleting it frees the block it uses. -/
theorem symlink_readlink (env : Env) (r : Rest) (below : UInt32 → List UInt32) (mode : UInt16)
    (target : List UInt8) (x : Slot) (b : UInt32) (data : UInt32 → List UInt8)
    (hbs : 1024 ≤ env.blocksize.toNat) (hlen : target.length<1024) (hb : b≠0)
    (hmode : isLnk (Request.symlink mode target).mode=true) (hx : x.linksCount=0) :
    let q := Request.symlink mode target
    let e := env.writing b target
    let made := q.run e x
    let stored := q.flushed e x
    let data := dataWith e.blocksize.toNat b target data
    Serves e r below data b target made.1 made.2 ∧
      Serves e r below data b target (vget e 0 stored) stored ∧
      ∀ (fs : Mount.Fs) (s : Volume) (ino : ℕ) (wild : Slot),fs.vgetSlot ino=fs.updateSlot ino →
        (fs.vgetSlot ino).offset+128≤fs.blocksize →
        (s.stored fs ino stored).read fs wild ino=stored := by
  intro q e made stored data
  have hformed : q.Formed e x := symlink_formed hx (.inl (symlink_isDev mode target))
  obtain ⟨hrun,hflush⟩ := hformed
  have hin : HoldsTarget b target (symlinkInode e mode target).contents :=
    symlinkInode_holds env mode b hlen
  have hlnk : isLnk (symlinkInode e mode target).mode=true :=
    (symlinkInode_isLnk e mode).trans hmode
  refine ⟨?_,?_,fun fs s ino wild h1 h2 => (s.read_stored ..).trans (if_pos ⟨h1,h2⟩)⟩
  · apply HoldsTarget.serves e r below _ hbs hlen hb
    · rw [hrun]
      exact hlnk
    · rw [hrun]
      exact hin
  · have hdisk : q.onDisk e=itimes (e.time 3) false (symlinkInode e mode target) := by
      have hdue : (symlinkInode e mode target).flag.change=true := by
        unfold symlinkInode
        split <;> rfl
      unfold Request.onDisk
      rw [symlink_isDev mode target]
      simp [hdue,Request.inCore,q]
    have hk := itimes_kept (e.time 3) false (symlinkInode e mode target)
    have hold : HoldsTarget b target (q.onDisk e).contents := by
      rw [hdisk,hk.contents]
      exact hin
    have hty : isLnk (q.onDisk e).mode=true := by
      rw [hdisk,hk.mode]
      exact hlnk
    have hn : (q.onDisk e).nlink≠0 := (Request.Keeps.onDisk e q).nlink ▸ q.nlink_ne_zero
    have hback : HoldsTarget b target (vget e 0 stored).contents ∧
        isLnk (vget e 0 stored).mode=true := by
      rw [show stored=_ from hflush]
      exact vget_stored e x hold hlen hty hn
    exact hback.1.serves e r below hbs hlen hb hback.2 _ _

def longTarget : List UInt8 := List.replicate 60 0x61

theorem symlink_readlink_long :
    let q := Request.symlink 0x1FF longTarget
    let e := sampleEnv.writing 7 longTarget
    let stored := q.flushed e (freeSlot 0 0 0)
    let r : Rest := ⟨false,false,fun _ => ⟨0,0⟩,some⟩
    longTarget.length=60 ∧ Serves e r (fun _ => []) (dataWith 1024 7 longTarget fun _ => []) 7
      longTarget (vget e 0 stored) stored :=
  ⟨by decide,(symlink_readlink sampleEnv _ _ 0x1FF longTarget (freeSlot 0 0 0) 7 (fun _ => [])
    (by decide) (by decide) (by decide) (by decide) (by decide)).2.1⟩

end Ext2fsX.Reuse
