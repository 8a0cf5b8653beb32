import Mathlib.Algebra.Order.Floor.Div

namespace Ext2fsX.Mount

structure Superblock where
  blocksCount : UInt32
  firstDataBlock : UInt32
  logBlockSize : UInt32
  logFragSize : UInt32
  blocksPerGroup : UInt32
  inodesPerGroup : UInt32
  magic : UInt16
  state : UInt16
  revLevel : UInt32
  firstIno : UInt32
  inodeSize : UInt16
  featureIncompat : UInt32
  featureRoCompat : UInt32
  deriving DecidableEq

structure Descriptor where
  blockBitmap : UInt32
  inodeBitmap : UInt32
  inodeTable : UInt32
  usedDirsCount : UInt16

/-- The descriptor blocks, which can be read, the flags of the mount, and what the machine makes of
a shift that C leaves undefined. -/
structure Env where
  pageSize : ℕ
  wild : ℕ → ℤ
  desc : ℕ → ℕ → Descriptor
  readable : ℕ → Bool
  ronly : Bool
  force : Bool

/-- `oversized` records a shift by more than the 20 places that `1024 << n` has in an `int`. -/
structure Fs where
  blocksize : ℕ
  fsbtodb : ℕ
  fsize : ℕ
  bpg : ℕ
  ipg : ℕ
  ipb : ℕ
  itpg : ℕ
  descPerBlock : ℕ
  groupsCount : ℕ
  dbpg : ℕ
  isize : ℕ
  dircount : ℕ
  table : ℕ → ℕ
  oversized : Bool

/-- How a mount fails: with an error, or with a division by zero. -/
inductive Stop where
  | einval
  | eperm
  | enotsup
  | eio
  | divide
  deriving DecidableEq

variable (env : Env)

/-- `1024 << n`, an `int`, as an `unsigned long`. -/
def shiftKilo (n : UInt32) : ℕ :=
  if n.toNat≤20 then 1024*2^n.toNat else (env.wild n.toNat%18446744073709551616).toNat

/-- The `int` is compared with `PAGE_SIZE`. -/
def overPage (n : UInt32) : Bool :=
  if n.toNat≤20 then decide (env.pageSize<1024*2^n.toNat)
  else decide (env.pageSize<env.wild n.toNat)

variable (es : Superblock)

/-- The assignments of `compute_sb_data`; a zero divisor is looked for below. -/
def geometry : Fs where
  blocksize := shiftKilo env es.logBlockSize
  fsbtodb := es.logBlockSize.toNat+1
  fsize := shiftKilo env es.logFragSize
  bpg := es.blocksPerGroup.toNat
  ipg := es.inodesPerGroup.toNat
  ipb := shiftKilo env es.logBlockSize/128
  itpg := es.inodesPerGroup.toNat/(shiftKilo env es.logBlockSize/128)
  descPerBlock := shiftKilo env es.logBlockSize/32
  groupsCount := ((es.blocksCount-es.firstDataBlock).toNat+es.blocksPerGroup.toNat-1)/
    es.blocksPerGroup.toNat
  dbpg := (((es.blocksCount-es.firstDataBlock).toNat+es.blocksPerGroup.toNat-1)/
    es.blocksPerGroup.toNat+shiftKilo env es.logBlockSize/32-1)/
      (shiftKilo env es.logBlockSize/32)
  isize := if es.revLevel=0 then 128 else es.inodeSize.toNat
  dircount := 0
  table i := (env.desc (i/(shiftKilo env es.logBlockSize/32))
    (i%(shiftKilo env es.logBlockSize/32))).inodeTable.toNat
  oversized := !(decide (es.logBlockSize.toNat≤20) && decide (es.logFragSize.toNat≤20))

variable (fs : Fs)

/-- In the order of the divisions: `EXT2_INODES_PER_BLOCK`, `EXT2_BLOCKS_PER_GROUP`,
`EXT2_DESC_PER_BLOCK`. -/
def Fs.divides : Bool := fs.ipb=0 || fs.bpg=0 || fs.descPerBlock=0

def inGroup (d : Descriptor) (block : ℕ) : Bool :=
  (decide (block≤d.blockBitmap.toNat) && decide (d.blockBitmap.toNat<block+fs.bpg)) &&
  (decide (block≤d.inodeBitmap.toNat) && decide (d.inodeBitmap.toNat<block+fs.bpg)) &&
  (decide (block≤d.inodeTable.toNat) && decide (d.inodeTable.toNat+fs.itpg<block+fs.bpg))

/-- `n` groups left, the next one `i` from `block` on; the number of directories, or `none` when one
is rejected. -/
def checkDescriptors : ℕ → ℕ → ℕ → ℕ → Option ℕ
  | 0,_,_,dirs => some dirs
  | n+1,i,block,dirs =>
    let d := env.desc (i/fs.descPerBlock) (i%fs.descPerBlock)
    if inGroup fs d block then
      checkDescriptors n (i+1) (block+fs.bpg) (dirs+d.usedDirsCount.toNat)
    else none

def inodeFieldsOk : Bool :=
  decide (es.revLevel=0) ||
    (decide (11≤es.firstIno.toNat) && decide (128≤fs.isize) && decide (fs.isize≤fs.blocksize) &&
      decide (fs.isize &&& (fs.isize-1)=0))

def computeSbData : Except Stop Fs :=
  if (geometry env es).divides then .error .divide
  else if !(List.range (geometry env es).dbpg).all env.readable then .error .eio
  else
    match checkDescriptors env (geometry env es) (geometry env es).groupsCount 0
        es.firstDataBlock.toNat 0 with
    | none => .error .eio
    | some dirs =>
      if inodeFieldsOk es (geometry env es) then .ok { geometry env es with dircount := dirs }
      else .error .einval

def checkSbCompat (ronly : Bool) : Bool :=
  decide (es.magic=0xEF53) &&
    (decide (es.revLevel=0) ||
      (decide (es.featureIncompat &&& ~~~0x2=0) &&
        (ronly || decide (es.featureRoCompat &&& ~~~0x3=0))))

def isClean (state : UInt16) : Bool := decide (state &&& 1≠0) && decide (state &&& 2=0)

/-- `ext2_mountfs` as far as it decides about the superblock. The last division is
that of `um_seqinc`. -/
def mountfs : Except Stop Fs :=
  if !checkSbCompat es env.ronly then .error .einval
  else if !isClean es.state && !(env.ronly || env.force) then .error .eperm
  else if overPage env es.logBlockSize then .error .enotsup
  else
    match computeSbData env es with
    | .error e => .error e
    | .ok fs => if fs.fsize=0 then .error .divide else .ok fs

structure Accepted : Prop where
  geometry_eq : ∃ dirs,fs={ geometry env es with dircount := dirs }
  divisors : (geometry env es).divides=false
  descriptors : ∃ dirs,checkDescriptors env (geometry env es) (geometry env es).groupsCount 0
    es.firstDataBlock.toNat 0=some dirs
  inodes : inodeFieldsOk es (geometry env es)=true

variable {env : Env} {es : Superblock}

theorem computeSbData_accepted {fs : Fs} (h : computeSbData env es=.ok fs) : Accepted env es fs := by
  unfold computeSbData at h
  split at h
  · cases h
  case isFalse hd =>
    split at h
    · cases h
    cases hc : checkDescriptors env (geometry env es) (geometry env es).groupsCount 0
        es.firstDataBlock.toNat 0 with
    | none =>
      rw [hc] at h
      cases h
    | some dirs =>
      rw [hc] at h
      dsimp only at h
      split at h
      case isTrue hi =>
        cases h
        exact ⟨⟨dirs,rfl⟩,by simpa using hd,⟨dirs,hc⟩,hi⟩
      case isFalse => cases h

def getGroupDesc (env : Env) (fs : Fs) (i : ℕ) : Descriptor :=
  env.desc (i/fs.descPerBlock) (i%fs.descPerBlock)

theorem checkDescriptors_eq_some {fs : Fs} (n i block dirs r : ℕ) :
    checkDescriptors env fs n i block dirs=some r ↔
      (∀ j<n,inGroup fs (getGroupDesc env fs (i+j)) (block+j*fs.bpg)=true) ∧
      r=dirs+((List.range n).map
        (fun j => (getGroupDesc env fs (i+j)).usedDirsCount.toNat)).sum := by
  induction n generalizing i block dirs with
  | zero =>
    simp only [checkDescriptors,Option.some.injEq,List.range_zero,List.map_nil,List.sum_nil,
      Nat.add_zero]
    exact ⟨fun h => ⟨nofun,h.symm⟩,fun h => h.2.symm⟩
  | succ n ih =>
    have hi (j : ℕ) : i+1+j=i+(j+1) := by omega
    have hb (j : ℕ) : block+fs.bpg+j*fs.bpg=block+(j+1)*fs.bpg := by
      rw [Nat.succ_mul]
      omega
    rw [List.range_succ_eq_map,List.map_cons,List.sum_cons,List.map_map,← Nat.add_assoc]
    by_cases h0 : inGroup fs (getGroupDesc env fs i) block=true
    · have hstep : checkDescriptors env fs (n+1) i block dirs=checkDescriptors env fs n (i+1)
          (block+fs.bpg) (dirs+(getGroupDesc env fs i).usedDirsCount.toNat) := if_pos h0
      rw [hstep,ih]
      simp only [hi,hb]
      refine and_congr_left fun _ => ⟨fun h j hj => ?_,fun h j hj => h (j+1) (Nat.succ_lt_succ hj)⟩
      cases j with
      | zero => simpa using h0
      | succ j => exact h j (Nat.lt_of_succ_lt_succ hj)
    · have hstep : checkDescriptors env fs (n+1) i block dirs=none := if_neg h0
      rw [hstep]
      exact iff_of_false nofun fun h => h0 (by simpa using h.1 0 (Nat.succ_pos n))

theorem mountfs_ok (hcompat : checkSbCompat es env.ronly=true)
    (hclean : isClean es.state=true) (hpage : overPage env es.logBlockSize=false)
    (hdiv : (geometry env es).divides=false) (hread : ∀ i,env.readable i=true)
    (hdesc : ∃ r,checkDescriptors env (geometry env es) (geometry env es).groupsCount 0
      es.firstDataBlock.toNat 0=some r)
    (hinodes : inodeFieldsOk es (geometry env es)=true) (hfrag : (geometry env es).fsize≠0) :
    ∃ dirs,mountfs env es=.ok { geometry env es with dircount := dirs } := by
  obtain ⟨dirs,hd⟩ := hdesc
  have hall : (List.range (geometry env es).dbpg).all env.readable=true := by
    simp [hread]
  refine ⟨dirs,?_⟩
  have hcompute : computeSbData env es=.ok { geometry env es with dircount := dirs } := by
    rw [computeSbData,hdiv,hall,hd,hinodes]
    rfl
  rw [mountfs,hcompat,hclean,if_neg (by decide),if_neg (by simp),if_neg (by simp [hpage]),
    hcompute]
  exact if_neg hfrag

theorem mountfs_accepted {fs : Fs} (h : mountfs env es=.ok fs) :
    Accepted env es fs ∧ overPage env es.logBlockSize=false := by
  unfold mountfs at h
  split at h
  · cases h
  split at h
  · cases h
  split at h
  · cases h
  case isFalse hp =>
    cases hc : computeSbData env es with
    | error e =>
      rw [hc] at h
      cases h
    | ok fs' =>
      rw [hc] at h
      dsimp only at h
      split at h
      · cases h
      · cases h
        exact ⟨computeSbData_accepted hc,Bool.eq_false_of_not_eq_true hp⟩

/-- The geometry that the rest of the code takes for granted. -/
structure Usable (env : Env) (es : Superblock) (fs : Fs) : Prop where
  defined : fs.oversized=false
  size : ∃ k,fs.blocksize=1024*2^k
  page : fs.blocksize≤env.pageSize
  fragment : fs.fsize=fs.blocksize
  blocks : 1≤fs.bpg ∧ fs.bpg≤8*fs.blocksize
  inodes : 1≤fs.ipg ∧ fs.ipg≤8*fs.blocksize
  first : es.firstDataBlock<es.blocksCount
  groups : fs.groupsCount=(es.blocksCount.toNat-es.firstDataBlock.toNat) ⌈/⌉ fs.bpg

/-- What a mount does not check of the superblock. -/
structure Checked (es : Superblock) : Prop where
  shift : es.logBlockSize.toNat≤20
  fragment : es.logFragSize=es.logBlockSize
  blocks : es.blocksPerGroup.toNat≤8192*2^es.logBlockSize.toNat
  inodes : 1≤es.inodesPerGroup.toNat ∧ es.inodesPerGroup.toNat≤8192*2^es.logBlockSize.toNat
  first : es.firstDataBlock<es.blocksCount

theorem shiftKilo_eq (env : Env) {n : UInt32} (h : n.toNat≤20) : shiftKilo env n=1024*2^n.toNat :=
  if_pos h

theorem geometry_defined (env : Env) (es : Superblock) :
    (geometry env es).oversized=false ↔ es.logBlockSize.toNat≤20 ∧ es.logFragSize.toNat≤20 := by
  simp [geometry]

theorem shiftKilo_inj {m n : UInt32} (hm : m.toNat≤20) (hn : n.toNat≤20)
    (h : shiftKilo env m=shiftKilo env n) : m=n := by
  rw [shiftKilo_eq env hm,shiftKilo_eq env hn] at h
  have hp : 2^m.toNat=2^n.toNat := Nat.eq_of_mul_eq_mul_left (by decide) h
  exact UInt32.toNat_inj.mp (Nat.pow_right_injective (le_refl 2) hp)

theorem groupsCount_eq (env : Env) (h : es.firstDataBlock<es.blocksCount) :
    (geometry env es).groupsCount=
      (es.blocksCount.toNat-es.firstDataBlock.toNat) ⌈/⌉ (geometry env es).bpg := by
  rw [Nat.ceilDiv_eq_add_pred_div]
  simp only [geometry]
  rw [UInt32.toNat_sub_of_le _ _ (UInt32.le_of_lt h)]

/-- Exactly when the superblock meets what the mount leaves unchecked. -/
theorem mountfs_usable_iff (env : Env) (es : Superblock) (fs : Fs) (h : mountfs env es=.ok fs) :
    Usable env es fs ↔ Checked es := by
  obtain ⟨ha,hpage⟩ := mountfs_accepted h
  obtain ⟨dirs,rfl⟩ := ha.geometry_eq
  have hbpg : 1≤es.blocksPerGroup.toNat := by
    have hd := ha.divisors
    simp only [Fs.divides,Bool.or_eq_false_iff] at hd
    exact Nat.pos_of_ne_zero (of_decide_eq_false hd.1.2)
  constructor
  · intro hu
    obtain ⟨hb,hf⟩ := (geometry_defined env es).mp hu.defined
    have hsize := shiftKilo_eq env hb
    have hblocks := hu.blocks.2
    have hinodes := hu.inodes
    simp only [geometry,hsize] at hblocks hinodes
    refine ⟨hb,shiftKilo_inj hf hb hu.fragment,?_,⟨hinodes.1,?_⟩,hu.first⟩
    · omega
    · omega
  · intro hc
    have hb := hc.shift
    have hf : es.logFragSize.toNat≤20 := hc.fragment ▸ hb
    have hsize := shiftKilo_eq env hb
    have hblocks := hc.blocks
    have hinodes := hc.inodes
    rw [overPage,if_pos hb,← hsize] at hpage
    refine ⟨(geometry_defined env es).mpr ⟨hb,hf⟩,⟨es.logBlockSize.toNat,hsize⟩,
      Nat.not_lt.mp (of_decide_eq_false hpage),?_,⟨hbpg,?_⟩,
      ⟨hinodes.1,?_⟩,hc.first,groupsCount_eq env hc.first⟩
    · exact congrArg (shiftKilo env) hc.fragment
    · simp only [geometry,hsize]
      omega
    · simp only [geometry,hsize]
      omega

def smallDisk : Superblock where
  blocksCount := 8193
  firstDataBlock := 1
  logBlockSize := 0
  logFragSize := 0
  blocksPerGroup := 8192
  inodesPerGroup := 1024
  magic := 0xEF53
  state := 1
  revLevel := 1
  firstIno := 11
  inodeSize := 128
  featureIncompat := 2
  featureRoCompat := 1

def smallMount : Env where
  pageSize := 4096
  wild n := Int.bmod (1024*2^(n%32)) 4294967296
  desc _ _ := ⟨3,4,5,2⟩
  readable _ := true
  ronly := false
  force := false

theorem mountfs_usable_iff_small :
    ∃ fs,mountfs smallMount smallDisk=.ok fs ∧ Usable smallMount smallDisk fs := by
  have he : mountfs smallMount smallDisk=.ok { geometry smallMount smallDisk with dircount := 2 } :=
    rfl
  refine ⟨_,he,(mountfs_usable_iff _ _ _ he).mpr ⟨?_,rfl,?_,?_,?_⟩⟩ <;> decide

/-- The block size is shifted by 32 places, the fragment size by one, a group has more blocks than
its bitmap bits and no inodes, and no block is left after the first. -/
def strangeDisk : Superblock :=
  { smallDisk with
    blocksCount := 1
    logBlockSize := 32
    logFragSize := 1
    blocksPerGroup := 16384
    inodesPerGroup := 0 }

theorem mountfs_accepts_strange :
    ∃ fs,mountfs smallMount strangeDisk=.ok fs ∧ fs.oversized=true ∧ fs.blocksize=1024 ∧
      fs.fsize=2048 ∧ 8*fs.blocksize<fs.bpg ∧ fs.ipg=0 ∧
      ¬strangeDisk.firstDataBlock < strangeDisk.blocksCount ∧
      ¬Usable smallMount strangeDisk fs := by
  have he : mountfs smallMount strangeDisk=.ok (geometry smallMount strangeDisk) := rfl
  refine ⟨_,he,rfl,rfl,rfl,by decide,rfl,by decide,fun hu => ?_⟩
  exact absurd hu.first (by decide)

end Ext2fsX.Mount
