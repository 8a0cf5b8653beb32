import Ext2fsX.Reuse.TwoRuns
import Mathlib.Data.Nat.Bitwise

namespace Ext2fsX.Reuse

section Words

theorem or_shift {a k : ℕ} (h : a<2^k) (b : ℕ) : a ||| b <<< k=a+b*2^k := by
  rw [Nat.or_comm,← Nat.shiftLeft_add_eq_or_of_lt h,Nat.shiftLeft_eq,Nat.add_comm]

theorem join64 (a b : UInt32) : (a.toUInt64 ||| b.toUInt64 <<< 32).toNat=a.toNat+b.toNat*2^32 := by
  have hb := b.toNat_lt
  change a.toNat ||| b.toNat <<< 32%2^64=_
  rw [Nat.mod_eq_of_lt (by rw [Nat.shiftLeft_eq]; omega),or_shift a.toNat_lt]

theorem join32 (a b : UInt16) : (a.toUInt32 ||| b.toUInt32 <<< 16).toNat=a.toNat+b.toNat*2^16 := by
  have hb := b.toNat_lt
  change a.toNat ||| b.toNat <<< 16%2^32=_
  rw [Nat.mod_eq_of_lt (by rw [Nat.shiftLeft_eq]; omega),or_shift a.toNat_lt]

theorem shift64 (x : UInt64) : (x >>> 32).toUInt32.toNat=x.toNat/2^32 := by
  have hx := x.toNat_lt
  change x.toNat >>> 32%2^32=_
  omega

theorem shift32 (x : UInt32) : (x >>> 16).toUInt16.toNat=x.toNat/2^16 := by
  have hx := x.toNat_lt
  change x.toNat >>> 16%2^16=_
  omega

theorem size_words (a b : UInt32) : (a.toUInt64 ||| b.toUInt64 <<< 32).toUInt32=a ∧
    ((a.toUInt64 ||| b.toUInt64 <<< 32) >>> 32).toUInt32=b := by
  have ha := a.toNat_lt
  constructor
  · apply UInt32.toNat_inj.mp
    rw [UInt64.toNat_toUInt32,join64]
    omega
  · apply UInt32.toNat_inj.mp
    rw [shift64,join64]
    omega

theorem size_joined (x : UInt64) : x.toUInt32.toUInt64 ||| (x >>> 32).toUInt32.toUInt64 <<< 32=x := by
  apply UInt64.toNat_inj.mp
  rw [join64,shift64,UInt64.toNat_toUInt32]
  omega

theorem id_halves (a b : UInt16) : (a.toUInt32 ||| b.toUInt32 <<< 16).toUInt16=a ∧
    ((a.toUInt32 ||| b.toUInt32 <<< 16) >>> 16).toUInt16=b := by
  have ha := a.toNat_lt
  constructor
  · apply UInt16.toNat_inj.mp
    rw [UInt32.toNat_toUInt16,join32]
    omega
  · apply UInt16.toNat_inj.mp
    rw [shift32,join32]
    omega

theorem id_joined (x : UInt32) : x.toUInt16.toUInt32 ||| (x >>> 16).toUInt16.toUInt32 <<< 16=x := by
  apply UInt32.toNat_inj.mp
  rw [join32,shift32,UInt32.toNat_toUInt16]
  omega

end Words

section Flags

def putFlag (p : Prop) [Decidable p] (x b : UInt32) : UInt32 := if p then x ||| b else x &&& ~~~b

theorem diskFlags_eq (ip : Inode) : diskFlags ip=putFlag (ip.flags &&& sysImmutable≠0)
    (putFlag (ip.flags &&& sysAppend≠0) ip.e2flags appendFl) immutableFl := rfl

theorem and_bit {b : UInt32} (k : ℕ) (hb : b.toBitVec=.twoPow 32 k) (x : UInt32) :
    x &&& b=0 ∨ x &&& b=b := by
  have h : (x &&& b).toBitVec=x.toBitVec &&& BitVec.twoPow 32 k := by rw [UInt32.toBitVec_and,hb]
  rw [BitVec.and_twoPow] at h
  split at h
  · exact .inr (UInt32.eq_of_toBitVec_eq (h.trans hb.symm))
  · exact .inl (UInt32.eq_of_toBitVec_eq h)

variable {p : Prop} [Decidable p] {x b c : UInt32}

theorem putFlag_same (hb : x &&& b=0 ∨ x &&& b=b) (h : p ↔ x &&& b≠0) : putFlag p x b=x := by
  unfold putFlag
  apply UInt32.eq_of_toBitVec_eq
  rcases hb with h0 | h1
  · rw [if_neg (by simp [h,h0])]
    ext i hi
    simpa using congrArg (fun v => v.toBitVec[i]) h0
  by_cases hp : p
  · rw [if_pos hp]
    ext i hi
    simpa using congrArg (fun v => v.toBitVec[i]) h1
  · rw [if_neg hp]
    rw [h,not_not,h1] at hp
    simp [hp]

theorem putFlag_and (hb : b≠0) : putFlag p x b &&& b≠0 ↔ p := by
  unfold putFlag
  by_cases hp : p
  · have h : (x ||| b) &&& b=b := by
      apply UInt32.eq_of_toBitVec_eq
      ext i hi
      simp only [UInt32.toBitVec_and,UInt32.toBitVec_or,BitVec.getElem_and,BitVec.getElem_or]
      cases x.toBitVec[i] <;> simp
    simp [hp,h,hb]
  · have h : (x &&& ~~~b) &&& b=0 := by
      apply UInt32.eq_of_toBitVec_eq
      ext i hi
      simp
    simp [hp,h]

theorem putFlag_and_other (h : b &&& c=0) : putFlag p x b &&& c=x &&& c := by
  unfold putFlag
  apply UInt32.eq_of_toBitVec_eq
  ext i hi
  have hi := congrArg (fun v => v.toBitVec[i]) h
  split <;> simp at hi ⊢ <;> grind

end Flags

/-- The flags of the system for those on the disk, as `ext2_ei2i` sets them. -/
def bsdFlags (f : UInt32) : UInt32 :=
  (if f &&& appendFl≠0 then sysAppend else 0) ||| (if f &&& immutableFl≠0 then sysImmutable else 0)

structure Inode.Representable (ip : Inode) : Prop where
  links : ip.nlink≠0
  size : isReg ip.mode=false → ip.contents.size.toNat<2^32
  flags : ∃ f,ip.flags=bsdFlags f

/-- The inode as `ext2_i2ei` leaves it, without what is not on the disk. -/
def Inode.stored (env : Env) (ip : Inode) : Inode :=
  { ip with
    contents := { ip.contents with
      nextAllocBlock := 0, nextAllocGoal := 0, preallocBlock := 0, preallocCount := 0 }
    atimensec := 0, mtimensec := 0, ctimensec := 0, btime := 0, btimensec := 0
    e2flags := diskFlags ip
    modrev := env.uptime
    flag := ⟨false,false,false,false,false⟩ }

theorem bsdFlags_and (f : UInt32) : (bsdFlags f &&& sysAppend≠0 ↔ f &&& appendFl≠0) ∧
    (bsdFlags f &&& sysImmutable≠0 ↔ f &&& immutableFl≠0) := by
  unfold bsdFlags
  by_cases ha : f &&& appendFl=0
  · by_cases hi : f &&& immutableFl=0
    · simp [ha,hi]
    · simp [ha,hi]
      decide
  · by_cases hi : f &&& immutableFl=0
    · simp [ha,hi]
      decide
    · simp [ha,hi]
      decide

def Inode.Agree (ip : Inode) : Prop :=
  (ip.flags &&& sysAppend≠0 ↔ ip.e2flags &&& appendFl≠0) ∧
    (ip.flags &&& sysImmutable≠0 ↔ ip.e2flags &&& immutableFl≠0)

theorem diskFlags_of_agree {ip : Inode} (h : ip.Agree) : diskFlags ip=ip.e2flags := by
  rw [diskFlags_eq,putFlag_same (and_bit 5 (by decide) _) h.1,
    putFlag_same (and_bit 4 (by decide) _) h.2]

theorem bsdFlags_diskFlags {ip : Inode} (h : ∃ f,ip.flags=bsdFlags f) :
    bsdFlags (diskFlags ip)=ip.flags := by
  obtain ⟨f,hf⟩ := h
  obtain ⟨ha,hi⟩ := bsdFlags_and f
  have hdi : diskFlags ip &&& immutableFl≠0 ↔ f &&& immutableFl≠0 := by
    rw [diskFlags_eq,putFlag_and (by decide),hf,hi]
  have hda : diskFlags ip &&& appendFl≠0 ↔ f &&& appendFl≠0 := by
    rw [diskFlags_eq,putFlag_and_other (by decide),putFlag_and (by decide),hf,ha]
  rw [hf]
  simp only [bsdFlags,hda,hdi]

/-- With 32-bit owners, an inode read and written back is the same but for `i_dtime`, and one
written and read again has its fields. -/
theorem codec_roundtrip (env : Env) (h32 : env.noUid32=false) :
    (∀ ei : Slot,ei.linksCount≠0 → i2ei env (ei2i env ei) ei={ ei with dtime := 0 }) ∧
    ∀ (ip : Inode) (old : Slot),ip.Representable → ei2i env (i2ei env ip old)=ip.stored env := by
  constructor
  · intro ei hlinks
    have hl : (ei.linksCount=0)=False := eq_false hlinks
    have hflags : diskFlags (ei2i env ei)=ei.flags := diskFlags_of_agree (bsdFlags_and _)
    have hmode : (ei2i env ei).mode=ei.mode := if_pos hlinks
    simp only [i2ei,hflags,hmode]
    by_cases hreg : isReg ei.mode=true
    · simp only [ei2i,h32,hl,hreg,size_words,id_halves,ne_eq,not_false_eq_true,not_true_eq_false,
        Bool.false_eq_true,false_and,or_self,if_true,if_false]
    · simp only [ei2i,h32,hl,hreg,id_halves,UInt32.toUInt32_toUInt64,ne_eq,not_false_eq_true,
        not_true_eq_false,Bool.false_eq_true,false_and,or_self,if_true,if_false]
  · intro ip old h
    have hl : (ip.nlink=0)=False := eq_false h.links
    have hflags := bsdFlags_diskFlags h.flags
    unfold bsdFlags at hflags
    have hsize : isReg ip.mode=false → ip.contents.size.toUInt32.toUInt64=ip.contents.size := by
      intro hreg
      apply UInt64.toNat_inj.mp
      exact Nat.mod_eq_of_lt (h.size hreg)
    by_cases hreg : isReg ip.mode=true
    · simp only [ei2i,i2ei,Inode.stored,h32,hl,hreg,hflags,size_joined,id_joined,ne_eq,
        not_false_eq_true,not_true_eq_false,Bool.false_eq_true,false_and,or_self,if_true,if_false]
    · simp only [ei2i,i2ei,Inode.stored,h32,hl,hreg,hflags,hsize (by simpa using hreg),id_joined,
        ne_eq,not_false_eq_true,not_true_eq_false,Bool.false_eq_true,false_and,or_self,if_true,
        if_false]

def shortLink : Slot :=
  { freeSlot 0 0 0 with
    mode := 0xA1FF
    linksCount := 1
    size := 4
    flags := 0x30
    uid := 0x86A0
    uidHigh := 1
    block := setFirst (Vector.replicate 15 0) 0x636F6465 }

theorem codec_shortLink : isLnk shortLink.mode=true ∧
    i2ei sampleEnv (ei2i sampleEnv shortLink) shortLink={ shortLink with dtime := 0 } ∧
    ei2i sampleEnv (i2ei sampleEnv (ei2i sampleEnv shortLink) shortLink)=
      (ei2i sampleEnv shortLink).stored sampleEnv :=
  have h := codec_roundtrip sampleEnv rfl
  ⟨by decide,h.1 shortLink (by decide),h.2 _ _ ⟨by decide,by decide,_,rfl⟩⟩

end Ext2fsX.Reuse
