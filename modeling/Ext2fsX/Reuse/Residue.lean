import Ext2fsX.Reuse.Inode

namespace Ext2fsX.Reuse

open Framework

variable {env : Env}

/-- The generation number that `ext2_valloc` gives an inode whose slot has number `g`. -/
def newGen (env : Env) (g : UInt32) : UInt32 :=
  let g := if g=0 then env.random 0 else g
  if g=0 ∨ g+1=0 then env.random 1 else g+1

/-- The old flags that stay: all but `EXT2_APPEND_FL` and `EXT2_IMMUTABLE_FL`. -/
def keptFlags (x : Slot) : UInt32 := x.flags &&& ~~~appendFl &&& ~~~immutableFl

def merge (c : Inode) (g : UInt32) (x : Slot) : Inode :=
  { c with
    e2flags := keptFlags x
    atime := if x.flags &&& noatimeFl==0 then c.atime else x.atime
    atimensec := if x.flags &&& noatimeFl==0 then c.atimensec else 0
    gen := g }

theorem keptFlags_noatime (x : Slot) : keptFlags x &&& noatimeFl=x.flags &&& noatimeFl := by
  unfold keptFlags
  rw [UInt32.and_assoc,UInt32.and_assoc]
  rfl

structure Plain (c : Inode) : Prop where
  append : c.flags &&& sysAppend=0
  immutable : c.flags &&& sysImmutable=0

variable {c : Inode}

theorem diskFlags_of_plain (h : Plain c) :
    diskFlags c=c.e2flags &&& ~~~appendFl &&& ~~~immutableFl := by
  simp [diskFlags,h.append,h.immutable]

theorem Plain.merge (h : Plain c) (g : UInt32) (x : Slot) : Plain (merge c g x) :=
  ⟨h.append,h.immutable⟩

theorem diskFlags_merge (h : Plain c) (g : UInt32) (x : Slot) :
    diskFlags (merge c g x)=keptFlags x := by
  rw [diskFlags_of_plain (h.merge g x)]
  change x.flags &&& ~~~appendFl &&& ~~~immutableFl &&& ~~~appendFl &&& ~~~immutableFl=
    x.flags &&& ~~~appendFl &&& ~~~immutableFl
  simp only [UInt32.and_assoc]
  rfl

theorem itimes_merge (hc : c.e2flags=0) (hdue : c.flag.change=true) (now : Time)
    (dev : Bool) (g : UInt32) (x : Slot) :
    itimes now dev (merge c g x)=merge (itimes now dev c) g x := by
  have hbit := keptFlags_noatime x
  unfold itimes merge
  simp only [hbit,hc,hdue]
  cases x.flags &&& noatimeFl==0 <;> simp

/-- The mode, link count and owner that the first `ext2_update` writes. -/
def Request.setMode (env : Env) : Request → UInt16
  | .mkdir mode => (Request.mkdir mode).mode
  | q => dropSgid env q.mode

def Request.nlink : Request → UInt16
  | .mkdir _ => 2
  | _ => 1

def Request.owner (env : Env) (q : Request) : UInt32 :=
  if isLnk q.mode then env.parentUid else env.uid

/-- The inode that a call makes out of a slot of zeros, up to its generation number. -/
def Request.fresh (env : Env) (q : Request) : Inode where
  mode := q.setMode env
  nlink := q.nlink
  contents := ⟨0,0,Vector.replicate 15 0,0,0,0,0⟩
  atime := (env.time 1).sec
  atimensec := (env.time 1).nsec
  mtime := (env.time 1).sec
  mtimensec := (env.time 1).nsec
  ctime := (env.time 1).sec
  ctimensec := (env.time 1).nsec
  btime := (env.time 0).sec
  btimensec := (env.time 0).nsec
  flags := if env.whiteout then ufOpaque else 0
  gen := 0
  uid := q.owner env
  gid := env.parentGid
  e2flags := 0
  modrev := env.uptime+1
  flag := ⟨false,false,false,false,false⟩

theorem Request.fresh_plain (env : Env) (q : Request) : Plain (q.fresh env) := by
  have h : (q.fresh env).flags=if env.whiteout then ufOpaque else 0 := rfl
  constructor <;> rw [h] <;> cases env.whiteout <;> rfl

/-- The slot is written: the vnode is not a device, or `ext2_vget_internal` marked it. -/
def Request.Written (q : Request) (x : Slot) : Prop := isDev q.mode=false ∨ x.generation=0

theorem or_and (a b c : UInt16) : (a ||| b) &&& c=a &&& c ||| b &&& c := by
  apply UInt16.toBitVec_inj.mp
  rw [UInt16.toBitVec_and,UInt16.toBitVec_or,BitVec.and_comm,BitVec.and_or_distrib_left,
    BitVec.and_comm,BitVec.and_comm (x := c.toBitVec)]
  rfl

variable (mode : UInt16)

theorem mkdir_type : (Request.mkdir mode).mode &&& 0xF000=0x4000 := by
  change (mode &&& 0x1FF ||| 0x4000) &&& 0xF000=0x4000
  rw [or_and,UInt16.and_assoc]
  change mode &&& 0 ||| 0x4000=0x4000
  rw [UInt16.and_zero]
  rfl

theorem mkdir_isLnk : isLnk (Request.mkdir mode).mode=false := by
  unfold isLnk
  rw [mkdir_type]
  rfl

theorem Request.make_eq (env : Env) (q : Request) (x : Slot) :
    q.make env x=update env (env.time 1) (isDev q.mode)
      (setup env (q.setMode env) q.nlink (q.owner env) (valloc env q.mode x),x) := by
  cases q with
  | mkdir mode =>
    unfold make owner
    rw [mkdir_isLnk]
    rfl
  | _ => rfl

theorem or_top_ne_zero : mode ||| 0x8000≠0 := by
  intro h
  have hbit := congrArg (fun v : UInt16 => v.toBitVec.getLsbD 15) h
  simp at hbit

theorem typed_ne_zero : typed mode≠0 := by
  unfold typed
  by_cases h : mode &&& 0xF000=0
  · rw [if_pos h]
    exact or_top_ne_zero mode
  · rw [if_neg h]
    rintro rfl
    exact h (by decide)

variable (q : Request)

theorem Request.mode_ne_zero : q.mode≠0 := by
  cases q with
  | mkdir mode =>
    intro h
    have htype := mkdir_type mode
    rw [h] at htype
    exact absurd htype (by decide)
  | create mode => exact typed_ne_zero mode
  | symlink mode target => exact typed_ne_zero (0xA000 ||| mode)
  | mknod mode rdev => exact typed_ne_zero mode

/-- What `ext2_valloc` returns for a free slot. -/
def vallocd (env : Env) (x : Slot) : Inode where
  mode := 0
  nlink := 0
  contents := ⟨0,0,Vector.replicate 15 0,0,0,0,0⟩
  atime := x.atime
  atimensec := 0
  mtime := x.mtime
  mtimensec := 0
  ctime := x.ctime
  ctimensec := 0
  btime := (env.time 0).sec
  btimensec := (env.time 0).nsec
  flags := 0
  gen := newGen env x.generation
  uid := env.uid
  gid := env.rgid
  e2flags := x.flags
  modrev := env.uptime
  flag := ⟨false,false,false,x.generation==0,false⟩

theorem valloc_free {mode : UInt16} (hmode : mode≠0) {x : Slot} (hx : x.linksCount=0) :
    valloc env mode x=vallocd env x := by
  have hdir : isDir 0=false := by decide
  have hreg : isReg 0=false := by decide
  by_cases hg : x.generation=0
  · simp [valloc,vallocBody,vget,ei2i,vallocd,newGen,hx,hdir,hreg,hmode,hg]
  · simp [valloc,vallocBody,vget,ei2i,vallocd,newGen,hx,hdir,hreg,hmode,hg]

theorem itimes_setup (x : Slot) (dev : Bool) :
    itimes (env.time 1) dev (setup env (q.setMode env) q.nlink (q.owner env) (vallocd env x))=
      { merge (q.fresh env) (newGen env x.generation) x with
        e2flags := x.flags
        flag := ⟨false,false,false,(x.generation==0) || !dev,dev⟩ } := by
  simp [itimes,setup,vallocd,merge,Request.fresh]

theorem Request.make_written {x : Slot} (hx : x.linksCount=0) (hw : q.Written x) :
    q.make env x=(merge (q.fresh env) (newGen env x.generation) x,
      i2ei env (merge (q.fresh env) (newGen env x.generation) x) x) := by
  have hmod : ((x.generation==0) || !isDev q.mode)=true := by
    cases hw with
    | inl h => rw [h,Bool.not_false,Bool.or_true]
    | inr h => rw [h]; rfl
  have hflags : ∀ f,diskFlags { merge (q.fresh env) (newGen env x.generation) x with
      e2flags := x.flags, flag := f }=keptFlags x := by
    intro f
    exact diskFlags_of_plain ⟨(q.fresh_plain env).append,(q.fresh_plain env).immutable⟩
  have hdisk := diskFlags_merge (q.fresh_plain env) (newGen env x.generation) x
  rw [q.make_eq env x,valloc_free q.mode_ne_zero hx]
  unfold update
  rw [itimes_setup]
  simp only [hmod,if_true,hflags,i2ei,hdisk]
  rfl

theorem Request.make_unwritten (env : Env) {x : Slot} (hx : x.linksCount=0)
    (hw : ¬q.Written x) : (q.make env x).1.flag.modified=false ∧ (q.make env x).2=x := by
  have hdev : isDev q.mode=true := eq_true_of_ne_false fun h => hw (.inl h)
  have hgen : (x.generation==0)=false := by
    apply beq_false_of_ne
    exact fun h => hw (Or.inr h)
  rw [q.make_eq env x,valloc_free q.mode_ne_zero hx]
  unfold update
  rw [itimes_setup,hgen,hdev]
  exact ⟨rfl,rfl⟩

theorem isReg_clear {bits : UInt16} (h : ~~~bits &&& 0xF000=0xF000) :
    isReg (mode &&& ~~~bits)=isReg mode := by
  unfold isReg
  rw [UInt16.and_assoc,h]

theorem isReg_dropSgid : isReg (dropSgid env mode)=isReg mode := by
  unfold dropSgid
  split
  · exact isReg_clear mode (by decide)
  · rfl

theorem Request.isReg_setMode : isReg (q.setMode env)=isReg q.mode := by
  cases q with
  | mkdir mode => rfl
  | _ => exact isReg_dropSgid _

structure Request.Keeps (q : Request) (c : Inode) : Prop where
  plain : Plain c
  e2flags : c.e2flags=0
  reg : isReg c.mode=isReg q.mode
  nlink : c.nlink=q.nlink

variable {q : Request} {c e : Inode}

theorem Request.Keeps.fresh (env : Env) (q : Request) : q.Keeps (q.fresh env) :=
  ⟨q.fresh_plain env,rfl,q.isReg_setMode,rfl⟩

theorem Request.Keeps.afterWrite (h : q.Keeps c) (env : Env) : q.Keeps (write env c) := by
  refine ⟨⟨h.plain.append,h.plain.immutable⟩,h.e2flags,?_,h.nlink⟩
  rw [←h.reg]
  change isReg (if env.suser then c.mode else c.mode &&& ~~~0xC00)=isReg c.mode
  split
  · rfl
  · exact isReg_clear c.mode (by decide)

theorem write_merge (env : Env) (c : Inode) (g : UInt32) (x : Slot) :
    write env (merge c g x)=merge (write env c) g x := rfl

theorem Request.Keeps.afterItimes (h : q.Keeps c) (now : Time) (dev : Bool) :
    q.Keeps (itimes now dev c) := by
  have hk := itimes_kept now dev c
  refine ⟨⟨?_,?_⟩,?_,?_,?_⟩
  · rw [hk.flags,h.plain.append]
  · rw [hk.flags,h.plain.immutable]
  · rw [hk.e2flags,h.e2flags]
  · rw [hk.mode,h.reg]
  · rw [hk.nlink,h.nlink]

theorem i2ei_i2ei {p r : Inode} (h : isReg r.mode=isReg p.mode) (x : Slot) :
    i2ei env p (i2ei env r x)=i2ei env p x := by
  unfold i2ei
  rw [h]
  cases isReg p.mode <;> rfl

theorem itimes_modified (hdue : c.flag.change=true) (now : Time) :
    (itimes now false c).flag.modified=true := by
  unfold itimes
  simp [hdue]

theorem Request.Keeps.afterUpdate (hc : q.Keeps c) (he : q.Keeps e) (hdue : c.flag.change=true)
    (env : Env) (now : Time) (g : UInt32) (x : Slot) :
    update env now false (merge c g x,i2ei env (merge e g x) x)=
      (merge { itimes now false c with flag := ⟨false,false,false,false,false⟩ } g x,
        i2ei env (merge (itimes now false c) g x) x) := by
  have hk := hc.afterItimes now false
  have hlazy : (itimes now false c).flag=⟨false,false,false,true,c.flag.lazymod⟩ := by
    unfold itimes
    simp [hdue]
  unfold update
  rw [itimes_merge hc.e2flags hdue]
  have hm : (merge (itimes now false c) g x).flag.modified=true := itimes_modified hdue now
  simp only [hm,if_true]
  have hreg : isReg (merge e g x).mode=isReg (merge (itimes now false c) g x).mode :=
    he.reg.trans hk.reg.symm
  rw [i2ei_i2ei hreg,diskFlags_merge hk.plain]
  congr 1
  simp only [merge,hlazy]

theorem isDev_of_top {mode : UInt16} (h : mode &&& 0x8000≠0) : isDev mode=false := by
  have hand : (mode &&& 0xF000) &&& 0x8000=mode &&& 0x8000 := by
    rw [UInt16.and_assoc]
    rfl
  have hne : ∀ v : UInt16,v &&& 0x8000=0 → (mode &&& 0xF000==v)=false := by
    intro v hv
    apply beq_false_of_ne
    rintro rfl
    exact h (hand.symm.trans hv)
  unfold isDev
  rw [hne 0x2000 (by decide),hne 0x6000 (by decide)]
  rfl

theorem symlink_isDev (target : List UInt8) : isDev (Request.symlink mode target).mode=false := by
  have hbit : (0xA000 ||| mode) &&& 0x8000≠0 := by
    rw [or_and,UInt16.or_comm]
    exact or_top_ne_zero _
  have hty : ¬(0xA000 ||| mode) &&& 0xF000=0 := by
    intro h
    have htop := congrArg (fun v => v &&& 0x8000) h
    simp only [or_and,UInt16.or_comm _ (mode &&& 0xF000 &&& 0x8000)] at htop
    exact or_top_ne_zero _ htop
  change isDev (typed (0xA000 ||| mode))=false
  unfold typed
  rw [if_neg hty]
  exact isDev_of_top hbit

theorem mkdir_isDev : isDev (Request.mkdir mode).mode=false := by
  unfold isDev
  rw [mkdir_type]
  rfl

theorem update_dev {ip : Inode} (h : ip.flag.modified=false) (now : Time) (x : Slot) :
    (update env now true (ip,x)).2=x := by
  have hm : (itimes now true ip).flag.modified=false := by
    unfold itimes
    dsimp only
    split
    · exact h
    · simp [h]
  unfold update
  simp [hm]

theorem update_idle {ip : Inode} (h : ip.flag=⟨false,false,false,false,false⟩) (now : Time)
    (dev : Bool) (x : Slot) : (update env now dev (ip,x)).2=x := by
  unfold update itimes
  simp [h]

def mkdirInode (env : Env) (mode : UInt16) : Inode :=
  let ip := itimes (env.time 2) false (write env ((Request.mkdir mode).fresh env))
  { ip with
    contents := { ip.contents with size := env.blocksize }
    flag := ⟨false,true,false,false,false⟩ }

def symlinkInode (env : Env) (mode : UInt16) (target : List UInt8) : Inode :=
  let ip := (Request.symlink mode target).fresh env
  if target.length<60 then
    { ip with
      contents := ⟨.ofNat target.length,0,shortlink target,0,0,0,0⟩
      flag := ⟨false,true,true,false,false⟩ }
  else write env ip

def mknodInode (env : Env) (mode : UInt16) (rdev : Option UInt32) : Inode :=
  let ip := (Request.mknod mode rdev).fresh env
  { ip with
    contents := { ip.contents with
      block := setFirst ip.contents.block (rdev.getD (ip.contents.block.get 0)) }
    flag := ⟨true,true,true,false,false⟩ }

def Request.inCore (env : Env) : Request → Inode
  | create mode => (create mode).fresh env
  | mkdir mode => mkdirInode env mode
  | symlink mode target => symlinkInode env mode target
  | mknod mode rdev => mknodInode env mode rdev

def Request.onDisk (env : Env) (q : Request) : Inode :=
  if isDev q.mode then q.fresh env
  else if q.inCore env |>.flag.change then itimes (env.time 3) false (q.inCore env)
  else q.inCore env

theorem Request.Keeps.inCore (env : Env) (q : Request) : q.Keeps (q.inCore env) := by
  have hfresh := Request.Keeps.fresh env q
  cases q with
  | create mode => exact hfresh
  | mkdir mode =>
    have hi := (hfresh.afterWrite env).afterItimes (env.time 2) false
    exact ⟨⟨hi.plain.append,hi.plain.immutable⟩,hi.e2flags,hi.reg,hi.nlink⟩
  | symlink mode target =>
    change Request.Keeps _ (symlinkInode env mode target)
    unfold symlinkInode
    split
    · exact ⟨⟨hfresh.plain.append,hfresh.plain.immutable⟩,hfresh.e2flags,hfresh.reg,hfresh.nlink⟩
    · exact hfresh.afterWrite env
  | mknod mode rdev =>
    exact ⟨⟨hfresh.plain.append,hfresh.plain.immutable⟩,hfresh.e2flags,hfresh.reg,hfresh.nlink⟩

theorem Request.Keeps.onDisk (env : Env) (q : Request) : q.Keeps (q.onDisk env) := by
  have hk := Request.Keeps.inCore env q
  unfold Request.onDisk
  split
  · exact .fresh env q
  · split
    · exact hk.afterItimes (env.time 3) false
    · exact hk

def Request.Formed (env : Env) (q : Request) (x : Slot) : Prop :=
  (q.run env x).1=merge (q.inCore env) (newGen env x.generation) x ∧
    q.flushed env x=i2ei env (merge (q.onDisk env) (newGen env x.generation) x) x

variable {x : Slot}

/-- The last `ext2_update`, when the slot holds some inode `e` of the call. -/
theorem Request.formed_of_change (hrun : q.run env x=
    (merge (q.inCore env) (newGen env x.generation) x,
      i2ei env (merge e (newGen env x.generation) x) x)) (he : q.Keeps e)
    (hdue : (q.inCore env).flag.change=true) (hdev : isDev q.mode=false) : q.Formed env x := by
  have hdisk : q.onDisk env=itimes (env.time 3) false (q.inCore env) := by
    unfold onDisk
    rw [hdev,hdue]
    rfl
  constructor
  · rw [hrun]
  · unfold flushed
    rw [hrun,hdev,(Request.Keeps.inCore env q).afterUpdate he hdue,hdisk]

theorem Request.run_of_finish (env : Env) (hx : x.linksCount=0) (hw : q.Written x)
    (hfin : ∀ g D,q.finish env (merge (q.fresh env) g x,D)=(merge (q.inCore env) g x,D)) :
    q.run env x=(merge (q.inCore env) (newGen env x.generation) x,
      i2ei env (merge (q.fresh env) (newGen env x.generation) x) x) := by
  unfold run
  rw [q.make_written hx hw,hfin]

section

variable (hx : x.linksCount=0)

include hx

variable {mode : UInt16}

theorem create_formed (hw : (Request.create mode).Written x) : (Request.create mode).Formed env x := by
  have hrun := Request.run_of_finish env hx hw (fun g D => rfl)
  have hdisk : (Request.create mode).onDisk env=(Request.create mode).fresh env := by
    unfold Request.onDisk
    split <;> rfl
  constructor
  · rw [hrun]
  · unfold Request.flushed
    rw [hrun,hdisk]
    exact update_idle rfl _ _ _

theorem mkdir_formed (hw : (Request.mkdir mode).Written x) : (Request.mkdir mode).Formed env x := by
  have hwrite := (Request.Keeps.fresh env (.mkdir mode)).afterWrite env
  have hfirst := hwrite.afterUpdate (.fresh env (.mkdir mode)) rfl env (env.time 2)
    (newGen env x.generation) x
  have hrun : (Request.mkdir mode).run env x=
      (merge (mkdirInode env mode) (newGen env x.generation) x,
        i2ei env (merge (itimes (env.time 2) false (write env ((Request.mkdir mode).fresh env)))
          (newGen env x.generation) x) x) := by
    unfold Request.run
    rw [(Request.mkdir mode).make_written hx hw]
    unfold Request.finish
    dsimp only
    rw [mkdir_isDev,write_merge,hfirst]
    rfl
  exact Request.formed_of_change hrun (hwrite.afterItimes (env.time 2) false) rfl (mkdir_isDev mode)

theorem symlink_formed {target : List UInt8} (hw : (Request.symlink mode target).Written x) :
    (Request.symlink mode target).Formed env x := by
  have hfin : ∀ g D,(Request.symlink mode target).finish env
      (merge ((Request.symlink mode target).fresh env) g x,D)=
        (merge (symlinkInode env mode target) g x,D) := by
    intro g D
    unfold Request.finish symlinkInode
    dsimp only
    split
    · rfl
    · rw [write_merge]
  have hdue : (symlinkInode env mode target).flag.change=true := by
    unfold symlinkInode
    split <;> rfl
  exact Request.formed_of_change (Request.run_of_finish env hx hw hfin) (.fresh env _) hdue
    (symlink_isDev mode target)

theorem mknod_formed {rdev : Option UInt32}
    (hw : (Request.mknod mode rdev).Written x) : (Request.mknod mode rdev).Formed env x := by
  have hrun := Request.run_of_finish env hx hw (fun g D => rfl)
  cases hdev : isDev (Request.mknod mode rdev).mode with
  | true =>
    have hdisk : (Request.mknod mode rdev).onDisk env=(Request.mknod mode rdev).fresh env := by
      unfold Request.onDisk
      rw [hdev]
      rfl
    constructor
    · rw [hrun]
    · unfold Request.flushed
      rw [hrun,hdev,hdisk]
      exact update_dev rfl _ _
  | false => exact Request.formed_of_change hrun (.fresh env _) rfl hdev

end

theorem Request.formed (env : Env) (hx : x.linksCount=0) (hw : q.Written x) : q.Formed env x := by
  cases q with
  | create mode => exact create_formed hx hw
  | mkdir mode => exact mkdir_formed hx hw
  | symlink mode target => exact symlink_formed hx hw
  | mknod mode rdev => exact mknod_formed hx hw

theorem Request.flushed_unwritten (env : Env) (hx : x.linksCount=0) (hw : ¬q.Written x) :
    q.flushed env x=x := by
  have hdev : isDev q.mode=true := eq_true_of_ne_false fun h => hw (.inl h)
  obtain ⟨hm,hs⟩ := q.make_unwritten env hx hw
  have hfin : (q.run env x).1.flag.modified=false ∧ (q.run env x).2=x := by
    cases q with
    | mkdir mode => exact absurd (Or.inl (mkdir_isDev mode)) hw
    | symlink mode target => exact absurd (Or.inl (symlink_isDev mode target)) hw
    | _ => exact ⟨hm,hs⟩
  unfold flushed
  rw [hdev]
  exact (update_dev hfin.1 (env.time 3) (q.run env x).2).trans hfin.2

end Ext2fsX.Reuse
