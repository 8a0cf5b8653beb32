import Ext2fsX.Reuse.Codec

namespace Ext2fsX.Reuse

/-- `EXT3_DIRSYNC_FL`, `EXT3_JOURNAL_DATA_FL`, `EXT2_FL_USER_VISIBLE` and
`EXT2_FL_USER_MODIFIABLE`. -/
def dirsyncFl : UInt32 := 0x10000

def journalDataFl : UInt32 := 0x4000

def userVisible : UInt32 := 0x3DFFF

def userModifiable : UInt32 := 0x80FF

def ufAppend : UInt32 := 0x4

def ufImmutable : UInt32 := 0x2

inductive FlagsError where
  | erofs
  | eacces
  | eperm
  deriving DecidableEq

variable (ip : Inode)

/-- `oldflags` with what `chflags` has set since the inode was written. -/
def oldFlags : UInt32 :=
  ip.e2flags ||| (if ip.flags &&& sysAppend≠0 then appendFl else 0) |||
    (if ip.flags &&& sysImmutable≠0 then immutableFl else 0)

def getFlags : UInt32 := ip.e2flags &&& userVisible

def wantedFlags (f : UInt32) : UInt32 :=
  if isDir ip.mode then f else f &&& ~~~dirsyncFl

def mergedFlags (super : Bool) (flags oldflags : UInt32) : UInt32 :=
  if super then flags ||| oldflags
  else (flags &&& userModifiable) ||| (oldflags &&& ~~~userModifiable)

/-- The new flags in the inode, before `ext2_update`. -/
def Inode.withFlags (super : Bool) (flags : UInt32) : Inode :=
  { ip with
    e2flags := flags
    flag := { ip.flag with change := true, modified := true }
    flags := putFlag (flags &&& immutableFl≠0)
      (putFlag (flags &&& appendFl≠0) ip.flags (if super then sysAppend else ufAppend))
      (if super then sysImmutable else ufImmutable) }

/-- `EXT2_IOC_SETFLAGS` by the user `uid`; `e2securelevel` is above 0. -/
def setFlags (env : Env) (now : Time) (dev rdOnly : Bool) (uid f : UInt32) (x : Inode × Slot) :
    Except FlagsError (Inode × Slot) :=
  let super : Bool := uid==0
  if rdOnly then .error .erofs
  else if uid≠x.1.uid ∧ super=false then .error .eacces
  else
    let flags := wantedFlags x.1 f
    let oldflags := oldFlags x.1
    if (flags ^^^ oldflags) &&& (appendFl ||| immutableFl)≠0 ∧
        oldflags &&& (appendFl ||| immutableFl)≠0 ∧ (super=false ∨ x.1.uid=0) then .error .eperm
    else if (flags ^^^ oldflags) &&& journalDataFl≠0 ∧ super=false then .error .eacces
    else .ok (update env now dev (x.1.withFlags super (mergedFlags super flags oldflags),x.2))

/-- The visible bits that the superuser may change: not the one for directories on other files. -/
def changeable : UInt32 := wantedFlags ip userVisible

/-- The flags asked for are there, and those of the system are the same. -/
structure FlagsSet (super : Bool) (f : UInt32) (ip ip' : Inode) : Prop where
  owner : super=false →
    getFlags ip'=(f &&& userModifiable) ||| (getFlags ip &&& ~~~userModifiable)
  root : super=true → getFlags ip' &&& changeable ip=f &&& changeable ip
  agree : ip'.Agree

section Bits

variable {x y b c : UInt32}

theorem or_mask (x y b : UInt32) : (x ||| y) &&& b=(x &&& b) ||| (y &&& b) := by
  apply UInt32.eq_of_toBitVec_eq
  ext i hi
  simp [Bool.and_or_distrib_right]

theorem or_and_ne : (x ||| y) &&& b≠0 ↔ x &&& b≠0 ∨ y &&& b≠0 := by
  rw [or_mask,ne_eq,UInt32.or_eq_zero_iff,not_and_or]

theorem xor_and_ne (hx : x &&& b=0) (hy : y &&& b≠0) : (x ^^^ y) &&& b≠0 := by
  have h : (x ^^^ y) &&& b=(x &&& b) ^^^ (y &&& b) := by
    apply UInt32.eq_of_toBitVec_eq
    ext i hi
    simp [Bool.and_xor_distrib_right]
  rwa [h,hx,UInt32.zero_xor]

theorem and_sub_ne (h : b &&& c=b) (hx : x &&& b≠0) : x &&& c≠0 := by
  intro h0
  rw [← h,UInt32.and_comm b,← UInt32.and_assoc,h0,UInt32.zero_and] at hx
  exact hx rfl

theorem or_mask_eq_iff : (x ||| y) &&& c=x &&& c ↔ y &&& ~~~x &&& c=0 := by
  constructor <;> intro h <;> apply UInt32.eq_of_toBitVec_eq <;> ext i hi
  · have hb := congrArg (fun v => v.toBitVec[i]) h
    simp at hb ⊢
    grind
  · have hb := congrArg (fun v => v.toBitVec[i]) h
    simp at hb ⊢
    grind

end Bits

variable {env : Env} {now : Time} {dev rdOnly : Bool} {uid f : UInt32} {x x' : Inode × Slot}

theorem putFlag_sub {p : Prop} [Decidable p] {y c d : UInt32} (hd : d &&& c=d) (h0 : d≠0)
    (h : ¬p → y &&& c=0) : putFlag p y d &&& c≠0 ↔ p := by
  unfold putFlag
  by_cases hp : p
  · rw [if_pos hp,or_and_ne,hd]
    exact ⟨fun _ => hp,fun _ => .inr h0⟩
  · rw [if_neg hp,UInt32.and_assoc,UInt32.and_comm (~~~d),← UInt32.and_assoc,h hp,UInt32.zero_and]
    simp [hp]

theorem oldFlags_and : (ip.flags &&& sysAppend≠0 → oldFlags ip &&& appendFl≠0) ∧
    (ip.flags &&& sysImmutable≠0 → oldFlags ip &&& immutableFl≠0) := by
  unfold oldFlags
  constructor <;> intro h <;> simp only [h,if_true,or_and_ne,ne_eq,not_false_eq_true]
  · exact .inl (.inr (by decide))
  · exact .inr (by decide)

theorem oldFlags_other : oldFlags ip &&& ~~~userModifiable=ip.e2flags &&& ~~~userModifiable := by
  unfold oldFlags
  rw [or_mask,or_mask]
  have h (p : Prop) [Decidable p] (b : UInt32) (hb : b &&& ~~~userModifiable=0) :
      (if p then b else 0) &&& ~~~userModifiable=0 := by
    split
    · exact hb
    · exact UInt32.zero_and
  rw [h _ _ (by decide),h _ _ (by decide),UInt32.or_zero,UInt32.or_zero]

theorem wantedFlags_and (ip : Inode) (f : UInt32) {b : UInt32} (hb : ~~~dirsyncFl &&& b=b) :
    wantedFlags ip f &&& b=f &&& b := by
  unfold wantedFlags
  split
  · rfl
  · rw [UInt32.and_assoc,hb]

theorem flag_of_merged {super : Bool} {flags old b : UInt32}
    (hb : userModifiable &&& b=b) (hc : b &&& (appendFl ||| immutableFl)=b)
    (hperm : ¬((flags ^^^ old) &&& (appendFl ||| immutableFl)≠0 ∧
      old &&& (appendFl ||| immutableFl)≠0 ∧ (super=false ∨ x.1.uid=0)))
    (h : ¬mergedFlags super flags old &&& b≠0) : old &&& b=0 := by
  unfold mergedFlags at h
  by_contra hold
  cases super with
  | true =>
    rw [if_pos rfl,or_and_ne] at h
    exact h (.inr hold)
  | false =>
    rw [if_neg Bool.false_ne_true,or_and_ne,UInt32.and_assoc,hb] at h
    have hf : flags &&& b=0 := not_not.mp (fun h0 => h (.inl h0))
    exact hperm ⟨and_sub_ne hc (xor_and_ne hf hold),and_sub_ne hc hold,.inl rfl⟩

theorem withFlags_agree {ip : Inode} {super : Bool} {flags : UInt32}
    (ha : ¬flags &&& appendFl≠0 → ip.flags &&& sysAppend=0)
    (hi : ¬flags &&& immutableFl≠0 → ip.flags &&& sysImmutable=0) :
    (ip.withFlags super flags).Agree := by
  have hother (p : Prop) [Decidable p] (y : UInt32) :
      putFlag p y (if super then sysAppend else ufAppend) &&& sysImmutable=y &&& sysImmutable :=
    putFlag_and_other (by cases super <;> decide)
  constructor
  · change putFlag _ _ _ &&& sysAppend≠0 ↔ flags &&& appendFl≠0
    rw [putFlag_and_other (by cases super <;> decide)]
    exact putFlag_sub (by cases super <;> decide) (by cases super <;> decide) ha
  · exact putFlag_sub (by cases super <;> decide) (by cases super <;> decide)
      (fun h => (hother _ _).trans (hi h))

theorem flagsSet_iff {ip ip' : Inode} (super : Bool)
    (he : ip'.e2flags=mergedFlags super (wantedFlags ip f) (oldFlags ip)) (hagree : ip'.Agree) :
    FlagsSet super f ip ip' ↔ (super=true → oldFlags ip &&& ~~~f &&& changeable ip=0) := by
  cases super with
  | false =>
    refine ⟨fun _ h => absurd h Bool.false_ne_true,fun _ => ⟨fun _ => ?_,nofun,hagree⟩⟩
    rw [getFlags,he,mergedFlags,if_neg Bool.false_ne_true,wantedFlags_and ip f (by decide),
      oldFlags_other,or_mask,UInt32.and_assoc,UInt32.and_assoc,getFlags,UInt32.and_assoc]
    rfl
  | true =>
    have hw : wantedFlags ip f &&& changeable ip=f &&& changeable ip := by
      unfold changeable wantedFlags
      split
      · rfl
      · rw [UInt32.and_assoc]
        rfl
    have hv : userVisible &&& changeable ip=changeable ip := by
      unfold changeable wantedFlags
      split <;> rfl
    have hroot : getFlags ip' &&& changeable ip=f &&& changeable ip ↔
        oldFlags ip &&& ~~~f &&& changeable ip=0 := by
      rw [← or_mask_eq_iff,getFlags,he,mergedFlags,if_pos rfl,UInt32.and_assoc,hv,or_mask,hw,
        ← or_mask]
    exact ⟨fun h _ => hroot.mp (h.root rfl),fun h => ⟨nofun,fun _ => hroot.mpr (h rfl),hagree⟩⟩

theorem update_flags (env : Env) (now : Time) (dev : Bool) {ip : Inode} (ei : Slot)
    (h : ip.flag.modified=true) :
    (update env now dev (ip,ei)).1.e2flags=diskFlags ip ∧
      (update env now dev (ip,ei)).1.flags=ip.flags := by
  have hi : (itimes now dev ip).flag.modified=true ∧
      (itimes now dev ip).flags=ip.flags ∧ (itimes now dev ip).e2flags=ip.e2flags := by
    unfold itimes
    dsimp only
    split <;> simp [h]
  obtain ⟨hm,hf,he⟩ := hi
  simp [update,hm,diskFlags,hf,he]

/-- The flags asked for are reported, now and when the inode has been written and read again. -/
theorem setFlags_set_iff (env : Env) (now : Time) (dev rdOnly : Bool) (uid f : UInt32)
    (x x' : Inode × Slot) (h : setFlags env now dev rdOnly uid f x=.ok x') :
    (FlagsSet (uid==0) f x.1 x'.1 ∧
      ∀ ei,FlagsSet (uid==0) f x.1 (ei2i env (i2ei env x'.1 ei))) ↔
    (uid=0 → oldFlags x.1 &&& ~~~f &&& changeable x.1=0) := by
  unfold setFlags at h
  dsimp only at h
  split_ifs at h with h1 h2 hperm h4
  have hold := oldFlags_and x.1
  have hagree : (x.1.withFlags (uid==0) (mergedFlags (uid==0) (wantedFlags x.1 f)
      (oldFlags x.1))).Agree :=
    withFlags_agree (fun hn => not_not.mp (fun hb => hold.1 hb
        (flag_of_merged (by decide) (by decide) hperm hn)))
      (fun hn => not_not.mp (fun hb => hold.2 hb
        (flag_of_merged (by decide) (by decide) hperm hn)))
  generalize hm : mergedFlags (uid==0) (wantedFlags x.1 f) (oldFlags x.1)=flags at h hagree
  cases h
  obtain ⟨he,hf⟩ := update_flags env now dev x.2
    (rfl : (x.1.withFlags (uid==0) flags).flag.modified=true)
  rw [diskFlags_of_agree hagree] at he
  have hagree' : (update env now dev (x.1.withFlags (uid==0) flags,x.2)).1.Agree := by
    unfold Inode.Agree at hagree ⊢
    rwa [he,hf]
  have hset := flagsSet_iff (uid==0) (he.trans hm.symm) hagree'
  simp only [beq_iff_eq] at hset
  refine ⟨fun h => hset.mp h.1,fun h => ⟨hset.mpr h,fun ei => ?_⟩⟩
  have hread : (ei2i env (i2ei env (update env now dev (x.1.withFlags (uid==0) flags,x.2)).1
      ei)).Agree := bsdFlags_and _
  refine (flagsSet_iff _ ?_ hread).mpr (by simpa using h)
  exact (diskFlags_of_agree hagree').trans (he.trans hm.symm)

theorem setFlags_cleared :
    (setFlags sampleEnv ⟨0,0⟩ false false 0 0
      ({ ei2i sampleEnv shortLink with flags := 0, e2flags := 0x40 },shortLink)).map
        (fun x => getFlags x.1)=.ok 0x40 := by
  decide +kernel

theorem setFlags_owner : ∃ x',setFlags sampleEnv ⟨0,0⟩ false false 100000 0x40
      (ei2i sampleEnv { shortLink with flags := 0 },shortLink)=.ok x' ∧
    FlagsSet false 0x40 (ei2i sampleEnv { shortLink with flags := 0 }) x'.1 := by
  have h : setFlags sampleEnv ⟨0,0⟩ false false 100000 0x40
      (ei2i sampleEnv { shortLink with flags := 0 },shortLink)=.ok _ := rfl
  exact ⟨_,h,((setFlags_set_iff _ _ _ _ _ _ _ _ h).mpr (by decide)).1⟩

end Ext2fsX.Reuse
