import Ext2fsX.Blocks.Bmap
import Ext2fsX.Mount.Geometry
import Mathlib.Data.Int.ModEq
import Mathlib.Data.Nat.Factorization.Basic

namespace Ext2fsX.Blocks

variable (x : ℤ)

/-- The value that an `int` holds after `x` was stored in it. -/
def int32 : ℤ := x.bmod (2^32)

def unsigned : ℤ := x%2^32

def shl (k : ℕ) : Option ℤ := if k<32 then some (int32 (x*2^k)) else none

variable (es : Mount.Superblock)

def shiftCount : ℕ := (es.logBlockSize+1).toNat

def blkptrtodb (b : ℤ) : Option ℤ := shl b (shiftCount es)

/-- Where a block number becomes a disk address; `last` is the index of the last block to keep. -/
inductive Use where
  | bmaparray
  | bmapIndirect
  | balloc2
  | blkalloc
  | indirtrunc (last : ℤ)
  | blockBitmap
  | inodeBitmap

/-- What the callers of `ext2_indirtrunc` put in the places of `lastbn` and `dbn`. -/
def indirtruncArgs (nb last : ℤ) : Option ℤ × Option ℤ :=
  (blkptrtodb es nb,some last)

/-- The address of a block whose number is `nb` in an `ext2_daddr_t`. -/
def Use.address (nb : ℤ) : Use → Option ℤ
  | bmaparray => (blkptrtodb es nb).map fun d => if d=0 then -1 else d
  | bmapIndirect => blkptrtodb es nb
  | balloc2 => blkptrtodb es nb
  | blkalloc => (blkptrtodb es nb).map unsigned
  | indirtrunc last => (indirtruncArgs es nb last).2
  | blockBitmap => blkptrtodb es nb
  | inodeBitmap => blkptrtodb es nb

/-- The pointer counts as a hole. -/
def Use.Hole (nb : ℤ) : Use → Prop
  | bmaparray => blkptrtodb es nb=some 0
  | bmapIndirect => nb=0
  | balloc2 => nb=0
  | blkalloc => nb=0
  | indirtrunc _ => nb=0
  | blockBitmap => False
  | inodeBitmap => False

/-- The last test of `ext2_alloc`, for what `ext2_new_block` has returned. -/
def allocated (bno : ℤ) : Bool := decide (0<bno)

structure VolumeBlock where
  number : ℕ
  first_le : es.firstDataBlock.toNat≤number
  lt_count : number<es.blocksCount.toNat

/-- The address is that of the block, in sectors of 512 bytes, and no hole is seen. -/
def Use.Exact (fs : Mount.Fs) (b : ℕ) (u : Use) : Prop :=
  ¬u.Hole es (int32 b) ∧ ∃ a,u.address es (int32 b)=some a ∧ a*512=((b*fs.blocksize : ℕ) : ℤ)

def Below (fs : Mount.Fs) (limit b : ℕ) : Prop :=
  shiftCount es<32 ∧ fs.blocksize=512*2^shiftCount es ∧ b*fs.blocksize<limit

def Use.Safe (fs : Mount.Fs) (b : ℕ) : Use → Prop
  | bmaparray => 0<b ∧ Below es fs (2^40) b
  | bmapIndirect => 0<b ∧ Below es fs (2^40) b
  | balloc2 => 0<b ∧ Below es fs (2^40) b
  | blkalloc => 0<b ∧ Below es fs (2^41) b
  | indirtrunc last => 0<b ∧ last*512=((b*fs.blocksize : ℕ) : ℤ)
  | blockBitmap => Below es fs (2^40) b ∨ b=0 ∧ shiftCount es<32
  | inodeBitmap => Below es fs (2^40) b ∨ b=0 ∧ shiftCount es<32

theorem size_of_residue {b s x k : ℕ} (hb : 0<b) (hs : 0 < s) (hx : x<2^32)
    (hmod : x ≡ b*2^k [MOD 2^32]) (he : x*512=b*s) : s=512*2^k := by
  obtain ⟨a,m,hm,rfl⟩ := Nat.exists_eq_two_pow_mul_odd hb.ne'
  have hsmall : 2^a*s<2^41 := by
    have hle : 2^a*s≤2^a*m*s := Nat.mul_le_mul_right s (Nat.le_mul_of_pos_right _ hm.pos)
    omega
  have ha : a<41 := by
    have hle : 2^a≤2^a*s := Nat.le_mul_of_pos_right _ hs
    exact (Nat.pow_lt_pow_iff_right (by decide)).mp (Nat.lt_of_le_of_lt hle hsmall)
  have hsplit : 2^41=2^a*2^(41-a) := by rw [← Nat.pow_add,Nat.add_sub_cancel' ha.le]
  have hwide : 2^a*(m*s) ≡ 2^a*(m*(512*2^k)) [MOD 2^a*2^(41-a)] := by
    rw [← hsplit]
    have h512 := Nat.ModEq.mul_right' 512 hmod
    rw [he] at h512
    calc 2^a*(m*s) = 2^a*m*s := (Nat.mul_assoc _ _ _).symm
      _ ≡ 2^a*m*2^k*512 [MOD 2^41] := h512
      _ = 2^a*(m*(512*2^k)) := by ring
  have hodd : m.Coprime (2^(41-a)) := Nat.Coprime.pow_right _ hm.coprime_two_right
  have hres : s ≡ 512*2^k [MOD 2^(41-a)] :=
    Nat.ModEq.cancel_left_of_coprime hodd.symm
      (Nat.ModEq.mul_left_cancel' (Nat.two_pow_pos a).ne' hwide)
  have hlt : s<2^(41-a) := by
    rw [hsplit] at hsmall
    exact Nat.lt_of_mul_lt_mul_left hsmall
  have hpow : 512*2^k=2^(9+k) := by rw [Nat.pow_add]
  rw [hpow] at hres ⊢
  by_cases hk : 9+k<41-a
  · exact hres.eq_of_lt_of_lt hlt (Nat.pow_lt_pow_right (by decide) hk)
  · -- the shift leaves nothing of the block number
    have hzero : s ≡ 0 [MOD 2^(41-a)] :=
      hres.trans ((Nat.modEq_zero_iff_dvd).mpr (Nat.pow_dvd_pow 2 (by omega)))
    exact absurd (hzero.eq_of_lt_of_lt hlt (Nat.two_pow_pos _)) hs.ne'

theorem int32_pos_iff {b : ℕ} (h : b<2^32) : 0 < int32 b ↔ 0<b ∧ b<2^31 := by
  rw [int32,Int.bmod_def]
  omega

theorem int32_nonzero_iff {b : ℕ} (h : b<2^32) : ¬int32 b=0 ↔ 0<b := by
  rw [int32,Int.bmod_def]
  omega

theorem int32_eq {x : ℤ} (h0 : 0≤x) (h : x<2^31) : int32 x=x := by
  apply Int.bmod_eq_of_le
  · omega
  · omega

theorem int32_lt : int32 x<2^31 := by
  rw [int32,Int.bmod_def]
  omega

theorem int32_modEq : int32 x ≡ x [ZMOD 2^32] := Int.bmod_emod

theorem shl_int32 {k : ℕ} (hk : k<32) : shl (int32 x) k=some (int32 (x*2^k)) := by
  rw [shl,if_pos hk]
  simp only [int32,Int.bmod_mul_bmod]

theorem size_of_address {b s k : ℕ} {a : ℤ} (hb : 0<b) (hs : 0 < s) (ha : a<2^32)
    (hmod : a ≡ ((b*2^k : ℕ) : ℤ) [ZMOD 2^32]) (he : a*512=((b*s : ℕ) : ℤ)) : s=512*2^k := by
  have h0 : 0≤a := by
    omega
  obtain ⟨x,rfl⟩ := Int.eq_ofNat_of_zero_le h0
  have hx : x*512=b*s := by exact_mod_cast he
  apply size_of_residue hb hs (by omega) _ hx
  exact (Int.natCast_modEq_iff (n := 2^32)).mp hmod

/-- `f` reduces the shifted block number to a number below `n`. -/
theorem reduced_exact_iff {b s k n : ℕ} {f : ℤ → ℤ} (hn : n≤2^32) (hlt : ∀ x,f x<n)
    (hmod : ∀ x,f x ≡ x [ZMOD 2^32]) (hid : ∀ x : ℤ,0≤x → x<n → f x=x) (hb : 0<b) (hs : 0 < s) :
    f (b*2^k)*512=((b*s : ℕ) : ℤ) ↔ s=512*2^k ∧ b*s<512*n := by
  constructor
  · intro he
    have hl := hlt ((b : ℤ)*2^k)
    have hsize := size_of_address hb hs (by omega)
      (by rw [Nat.cast_mul,Nat.cast_pow]; exact hmod _) he
    exact ⟨hsize,by omega⟩
  · rintro ⟨rfl,hl⟩
    have hsmall : b*2^k<n := by
      rw [Nat.mul_left_comm] at hl
      omega
    rw [hid _ (by positivity) (by exact_mod_cast hsmall)]
    push_cast
    ring

theorem shl_exact_iff {b s k : ℕ} (hb : 0<b) (hs : 0 < s) :
    (∃ a,shl (int32 b) k=some a ∧ a*512=((b*s : ℕ) : ℤ)) ↔ k<32 ∧ s=512*2^k ∧ b*s<2^40 := by
  by_cases hk : k<32
  · simp only [shl_int32 _ hk,Option.some.injEq,exists_eq_left',hk,true_and]
    exact reduced_exact_iff (n := 2^31) (by decide) int32_lt int32_modEq (fun _ => int32_eq) hb hs
  · simp [shl,hk]

theorem unsigned_int32 : unsigned (int32 x)=x%2^32 := int32_modEq x

theorem shl_unsigned_exact_iff {b s k : ℕ} (hb : 0<b) (hs : 0 < s) :
    (∃ a,(shl (int32 b) k).map unsigned=some a ∧ a*512=((b*s : ℕ) : ℤ)) ↔
      k<32 ∧ s=512*2^k ∧ b*s<2^41 := by
  by_cases hk : k<32
  · simp only [shl_int32 _ hk,Option.map_some,Option.some.injEq,exists_eq_left',unsigned_int32,hk,
      true_and]
    exact reduced_exact_iff (f := (·%2^32)) (n := 2^32) le_rfl
      (fun x => Int.emod_lt_of_pos x (by decide)) (fun x => Int.mod_modEq x _)
      (fun _ => Int.emod_eq_of_lt) hb hs
  · simp [shl,hk]

theorem blocksize_pos_of_mount {env : Mount.Env} {es : Mount.Superblock} {fs : Mount.Fs}
    (h : Mount.mountfs env es=.ok fs) : 0 < fs.blocksize := by
  obtain ⟨ha,-⟩ := Mount.mountfs_accepted h
  obtain ⟨dirs,rfl⟩ := ha.geometry_eq
  have hd := ha.divisors
  simp only [Mount.Fs.divides,Bool.or_eq_false_iff,decide_eq_false_iff_not] at hd
  simp only [Mount.geometry] at hd ⊢
  omega

section

variable {es : Mount.Superblock} {fs : Mount.Fs} {b : ℕ}

theorem pointer_exact_iff (hs : 0 < fs.blocksize) (h32 : b<2^32) :
    (¬int32 b=0 ∧ ∃ a,blkptrtodb es (int32 b)=some a ∧ a*512=((b*fs.blocksize : ℕ) : ℤ)) ↔
      0<b ∧ Below es fs (2^40) b := by
  rw [int32_nonzero_iff h32]
  exact and_congr_right fun hb => shl_exact_iff hb hs

theorem bmaparray_exact_iff (hs : 0 < fs.blocksize) (h32 : b<2^32) :
    Use.bmaparray.Exact es fs b ↔ 0<b ∧ Below es fs (2^40) b := by
  rw [← pointer_exact_iff hs h32]
  constructor
  · rintro ⟨hhole,a,ha,he⟩
    obtain ⟨d,hd,hda⟩ := Option.map_eq_some_iff.mp ha
    have hd0 : d≠0 := fun h0 => hhole (hd.trans (congrArg some h0))
    rw [if_neg hd0] at hda
    refine ⟨fun h0 => hd0 ?_,d,hd,hda ▸ he⟩
    rw [h0,blkptrtodb,shl,Int.zero_mul] at hd
    split at hd
    · exact (Option.some.inj hd).symm
    · cases hd
  · rintro ⟨hne,a,ha,he⟩
    have hpos : 0 < b*fs.blocksize := Nat.mul_pos ((int32_nonzero_iff h32).mp hne) hs
    have ha0 : a≠0 := by omega
    refine ⟨fun h0 => ha0 (Option.some.inj (ha.symm.trans h0)),a,?_,he⟩
    rw [Use.address,ha,Option.map_some,if_neg ha0]

theorem bitmap_exact_iff (hs : 0 < fs.blocksize) :
    (∃ a,blkptrtodb es (int32 b)=some a ∧ a*512=((b*fs.blocksize : ℕ) : ℤ)) ↔
      Below es fs (2^40) b ∨ b=0 ∧ shiftCount es<32 := by
  by_cases hb : 0<b
  · rw [blkptrtodb,shl_exact_iff hb hs]
    exact ⟨.inl,fun h => h.resolve_right fun h0 => hb.ne' h0.1⟩
  obtain rfl : b=0 := by omega
  constructor
  · rintro ⟨a,ha,-⟩
    rw [blkptrtodb,shl] at ha
    split at ha
    case isTrue hk => exact .inr ⟨rfl,hk⟩
    case isFalse => cases ha
  · intro h
    have hk : shiftCount es<32 := h.elim (fun h => h.1) fun h => h.2
    rw [blkptrtodb,shl_int32 _ hk]
    simp [int32]

end

/-- What each use needs of a block for its address to be exact. -/
theorem addresses_exact_iff (env : Mount.Env) (es : Mount.Superblock) (fs : Mount.Fs)
    (h : Mount.mountfs env es=.ok fs) (b : VolumeBlock es) :
    (∀ u : Use,u.Exact es fs b.number ↔ u.Safe es fs b.number) ∧
      (allocated (int32 b.number)=true ↔ 0<b.number ∧ b.number<2^31) := by
  have hs := blocksize_pos_of_mount h
  have h32 : b.number<2^32 := b.lt_count.trans es.blocksCount.toNat_lt
  refine ⟨fun u => ?_,by rw [allocated,decide_eq_true_eq,int32_pos_iff h32]⟩
  cases u with
  | bmaparray => exact bmaparray_exact_iff hs h32
  | bmapIndirect => exact pointer_exact_iff hs h32
  | balloc2 => exact pointer_exact_iff hs h32
  | blkalloc =>
    refine Iff.trans ?_ (and_congr_right fun hb => shl_unsigned_exact_iff hb hs)
    exact and_congr_left' (int32_nonzero_iff h32)
  | indirtrunc last =>
    refine and_congr (int32_nonzero_iff h32) ?_
    exact ⟨fun ⟨a,ha,he⟩ => Option.some.inj ha ▸ he,fun he => ⟨last,rfl,he⟩⟩
  | _ => exact (and_iff_right id).trans (bitmap_exact_iff hs)

theorem addresses_exact_small :
    ∃ fs,Mount.mountfs Mount.smallMount Mount.smallDisk=.ok fs ∧
      Use.bmaparray.Exact Mount.smallDisk fs 100 ∧ Use.blkalloc.Exact Mount.smallDisk fs 100 := by
  have he : Mount.mountfs Mount.smallMount Mount.smallDisk=
      .ok { Mount.geometry Mount.smallMount Mount.smallDisk with dircount := 2 } := rfl
  have hall := (addresses_exact_iff _ _ _ he ⟨100,by decide,by decide⟩).1
  exact ⟨_,he,(hall .bmaparray).mpr ⟨by decide,by decide,by decide,by decide⟩,
    (hall .blkalloc).mpr ⟨by decide,by decide,by decide,by decide⟩⟩

section

variable {g : Geometry} {es : Mount.Superblock} (h : es.logBlockSize.toNat=g.logBlockSize)

include h

theorem blkptrtodb_model (nb : ℤ) : blkptrtodb es nb=some (g.fsbtodb nb) := by
  have hlog := g.log_le
  have hk : shiftCount es=g.logBlockSize+1 := by
    rw [shiftCount,UInt32.toNat_add,h]
    exact Nat.mod_eq_of_lt (show g.logBlockSize+1<2^32 by omega)
  rw [blkptrtodb,shl,hk,if_pos (by omega)]
  rfl

theorem bmaparray_address (env : Env) (s : State) (maxrun : ℕ) {bn : ℕ} (hbn : bn<12) :
    ∃ d run,s.bmaparray g env bn maxrun=.ok s d run ∧
      Use.bmaparray.address es (s.db bn)=some d := by
  obtain ⟨run,hf⟩ := State.bmaparray_direct g env s maxrun hbn
  refine ⟨_,run,hf.1,?_⟩
  rw [Use.address,blkptrtodb_model h,Option.map_some,State.mapped,if_pos hbn]

theorem newIndirect_address {env : Env} {s : State} (hio : env.io s.clock=true) (lbn nb : ℤ) :
    ∃ b,(s.newIndirect g env lbn nb).1.cache lbn=some b ∧
      Use.balloc2.address es nb=some b.blkno := by
  refine ⟨⟨g.fsbtodb nb,fun _ => 0⟩,?_,blkptrtodb_model h nb⟩
  rw [State.newIndirect,if_pos hio]
  exact if_pos rfl

end

theorem indirBuf_address {env : Env} {s : State} (hio : env.io s.clock=true)
    {lbn : ℤ} (hmiss : s.cache lbn=none) (nb last : ℤ) :
    ∃ b,s.indirBuf env lbn last=some (s.tick,b) ∧
      (Use.indirtrunc last).address es nb=some b.blkno := by
  refine ⟨⟨last,s.disk last⟩,?_,rfl⟩
  rw [State.indirBuf,hmiss]
  exact if_pos hio

def hugeDisk : Mount.Superblock :=
  { Mount.smallDisk with
    blocksCount := 2147516416
    firstDataBlock := 0
    logBlockSize := 2
    logFragSize := 2
    blocksPerGroup := 32768
    inodesPerGroup := 8192 }

def hugeMount : Mount.Env :=
  { Mount.smallMount with
    desc := fun q r =>
      ⟨UInt32.ofNat ((q*128+r)*32768+600),UInt32.ofNat ((q*128+r)*32768+601),
        UInt32.ofNat ((q*128+r)*32768+602),0⟩ }

theorem hugeDisk_mounts : ∃ dirs,Mount.mountfs hugeMount hugeDisk=
      .ok { Mount.geometry hugeMount hugeDisk with dircount := dirs } := by
  apply Mount.mountfs_ok
  · decide
  · decide
  · decide
  · decide
  · exact fun _ => rfl
  · refine ⟨_,(Mount.checkDescriptors_eq_some ..).mpr ⟨?_,rfl⟩⟩
    intro j hj
    have hj : j<65537 := hj
    have hidx : (0+j)/128*128+(0+j)%128=j := by omega
    have hto (x : ℕ) (hx : x<1000) : (UInt32.ofNat (j*32768+x)).toNat=j*32768+x :=
      UInt32.toNat_ofNat_of_lt' (by change _ <2^32; omega)
    have hd : hugeMount.desc ((0+j)/128) ((0+j)%128)=
        ⟨UInt32.ofNat (j*32768+600),UInt32.ofNat (j*32768+601),UInt32.ofNat (j*32768+602),0⟩ := by
      simp only [hugeMount,hidx]
    change Mount.inGroup _ (hugeMount.desc ((0+j)/128) ((0+j)%128)) (0+j*32768)=true
    rw [hd]
    have hbpg : (Mount.geometry hugeMount hugeDisk).bpg=32768 := rfl
    have hitpg : (Mount.geometry hugeMount hugeDisk).itpg=256 := rfl
    simp only [Mount.inGroup,hbpg,hitpg,Bool.and_eq_true,decide_eq_true_eq,hto 600 (by decide),
      hto 601 (by decide),hto 602 (by decide)]
    omega
  · decide
  · decide

/-- Block 2^28 has a negative address, 2^29 is a hole, 2^31 is no space, and with nothing kept block
700 is read at -1. -/
theorem addresses_wrap :
    ∃ fs,Mount.mountfs hugeMount hugeDisk=.ok fs ∧ fs.blocksize=4096 ∧
      2^31<hugeDisk.blocksCount.toNat ∧ hugeDisk.firstDataBlock.toNat=0 ∧
      Use.bmaparray.address hugeDisk (int32 (2^28))=some (-2147483648) ∧
      Use.bmaparray.Hole hugeDisk (int32 (2^29)) ∧ allocated (int32 (2^31))=false ∧
      (Use.indirtrunc (-1)).address hugeDisk (int32 700)=some (-1) ∧
      ¬Use.bmaparray.Exact hugeDisk fs (2^28) ∧ ¬(Use.indirtrunc (-1)).Exact hugeDisk fs 700 := by
  obtain ⟨dirs,he⟩ := hugeDisk_mounts
  have hhole : blkptrtodb hugeDisk (int32 (2^29))=some 0 := by decide
  refine ⟨_,he,rfl,by decide,rfl,by decide,hhole,by decide,by decide,?_,?_⟩
  · rintro ⟨-,a,ha,hx⟩
    have hwrong : Use.bmaparray.address hugeDisk (int32 ((2^28 : ℕ) : ℤ))=some (-2147483648) := by
      decide
    obtain rfl := Option.some.inj (hwrong.symm.trans ha)
    have hneg : (0 : ℤ)≤ -2147483648*512 := hx.symm ▸ Int.natCast_nonneg _
    exact absurd hneg (by decide)
  · rintro ⟨-,a,ha,hx⟩
    obtain rfl : -1=a := Option.some.inj ha
    have hneg : (0 : ℤ)≤ -1*512 := hx.symm ▸ Int.natCast_nonneg _
    exact absurd hneg (by decide)

end Ext2fsX.Blocks
