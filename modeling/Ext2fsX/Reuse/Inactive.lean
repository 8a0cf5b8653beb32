import Ext2fsX.Reuse.TwoRuns

namespace Ext2fsX.Reuse

variable (ip : Inode)

/-- `i_nlink` is an `int16_t`. -/
def Inode.links : Int := ip.nlink.toBitVec.toInt

def linkMax : UInt16 := 32767

/-- The mount, whether writes are suspended, the clock and what `ext2_truncate` does to the
contents, `none` when it fails at once. -/
structure Rest where
  rdonly : Bool
  suspended : Bool
  time : ℕ → Time
  truncate : Contents → Option Contents

variable (env : Env)

def updateVp (rdonly : Bool) (now : Time) (dev : Bool) (x : Inode × Slot) :
    Inode × Slot :=
  if rdonly then x else update env now dev x

def discardPrealloc : Inode :=
  { ip with contents := { ip.contents with preallocCount := 0 } }

variable (r : Rest)

/-- `ext2_truncate` to length 0; its last `ext2_update` writes the inode. -/
def truncateVp (dev : Bool) (x : Inode × Slot) : Inode × Slot :=
  match r.truncate x.1.contents with
  | none => x
  | some c =>
    updateVp env r.rdonly (r.time 0) dev
      ({ x.1 with contents := c, flag := { x.1.flag with change := true, update := true } },x.2)

/-- The inode after `ext2_truncate`, up to the call of `ext2_vfree`. -/
def destroy (dev : Bool) (x : Inode × Slot) : Inode × Slot :=
  let y := truncateVp env r dev x
  ({ y.1 with
    contents := { y.1.contents with block := setFirst y.1.contents.block 0 }
    mode := 0
    flag := { y.1.flag with change := true, update := true } },y.2)

/-- The write of an inode that is marked. -/
def settle (dev : Bool) (x : Inode × Slot) : Inode × Slot :=
  let set := x.1.flag.change || x.1.flag.update || x.1.flag.modified
  if x.1.flag.access || set then
    if !set && r.suspended then ({ x.1 with flag := { x.1.flag with access := false } },x.2)
    else updateVp env r.rdonly (r.time 1) dev x
  else x

/-- What is left of an inode: in core, in its slot, and what was done to the file. -/
structure Left where
  ip : Inode
  slot : Slot
  truncated : Bool
  freed : Bool
  recycled : Bool

/-- `ext2_free_inode` gives the number back only if the link count is 0, not for a negative one. -/
def inactive (dev : Bool) (x : Inode × Slot) : Left :=
  let ip := discardPrealloc x.1
  if ip.mode=0 ∧ r.rdonly=false then ⟨ip,x.2,false,false,true⟩
  else if ip.links≤0 then
    let y := settle env r dev (destroy env r dev (ip,x.2))
    ⟨y.1,y.2,true,ip.nlink==0,y.1.mode==0⟩
  else
    let y := settle env r dev (ip,x.2)
    ⟨y.1,y.2,false,false,y.1.mode==0⟩

def Lost (l : Left) : Prop :=
  l.truncated=true ∨ l.freed=true ∨ (ip.mode≠0 ∧ l.ip.mode=0)

/-- What may happen to an inode in core but the removal of a name. -/
inductive Use where
  | link
  | change (ip : Inode)

/-- `ext2_link` compares with `LINK_MAX` as unsigned numbers. Anything else keeps the link count and
the generation number, only adds marks, and keeps whether the mode is 0. -/
def Use.apply : Use → Inode → Inode
  | link,ip => if linkMax ≤ ip.nlink then ip else { ip with nlink := ip.nlink+1 }
  | change ip',ip =>
    { ip' with
      nlink := ip.nlink
      gen := ip.gen
      mode := if ip.mode=0 then 0 else if ip'.mode=0 then ip.mode else ip'.mode
      flag := { ip'.flag with
        modified := ip.flag.modified || ip'.flag.modified
        lazymod := ip.flag.lazymod || ip'.flag.lazymod } }

def useAll (us : List Use) (ip : Inode) : Inode := us.foldl (fun ip u => u.apply ip) ip

variable (env : Env)

theorem update_mode (now : Time) (dev : Bool) (x : Inode × Slot) :
    (update env now dev x).1.mode=x.1.mode := by
  unfold update
  dsimp only
  split <;> exact (itimes_kept now dev x.1).mode

theorem updateVp_mode (rdonly : Bool) (now : Time) (dev : Bool) (x : Inode × Slot) :
    (updateVp env rdonly now dev x).1.mode=x.1.mode := by
  unfold updateVp
  split
  · rfl
  · exact update_mode env now dev x

theorem settle_mode (r : Rest) (dev : Bool) (x : Inode × Slot) :
    (settle env r dev x).1.mode=x.1.mode := by
  unfold settle
  dsimp only
  split
  · split
    · rfl
    · exact updateVp_mode env r.rdonly (r.time 1) dev x
  · rfl

theorem inactive_lost_iff (r : Rest) (dev : Bool) (x : Inode × Slot) :
    Lost x.1 (inactive env r dev x) ↔ ¬(x.1.mode=0 ∧ r.rdonly=false) ∧ x.1.links≤0 := by
  have hmode : (discardPrealloc x.1).mode=x.1.mode := rfl
  have hlinks : (discardPrealloc x.1).links=x.1.links := rfl
  unfold inactive
  simp only [hmode,hlinks]
  by_cases h0 : x.1.mode=0 ∧ r.rdonly=false
  · simp [h0,Lost]
  rw [if_neg h0]
  by_cases hl : x.1.links≤0
  · simp [hl,h0,Lost]
  have hs := settle_mode env r dev (discardPrealloc x.1,x.2)
  simp only [Lost,hl,and_false,iff_false]
  rintro (h | h | ⟨hm,h⟩)
  · exact nomatch h
  · exact nomatch h
  · exact hm (hs ▸ h)

theorem links_pos_iff : 0 < ip.links ↔ ip.nlink≠0 ∧ ip.nlink<0x8000 := by
  unfold Inode.links
  rw [BitVec.toInt_eq_toNat_cond,UInt16.lt_iff_toNat_lt]
  have h := ip.nlink.toNat_lt
  have hz : ip.nlink=0 ↔ ip.nlink.toNat=0 := ⟨fun h => by rw [h]; rfl,fun h => UInt16.toNat_inj.mp h⟩
  have hc : (0x8000 : UInt16).toNat=32768 := rfl
  simp only [UInt16.toNat_toBitVec,ne_eq,hz,hc]
  split <;> omega

def Survives (ip : Inode) : Prop := 0 < ip.links ∨ (ip.mode=0 ∧ r.rdonly=false)

theorem Survives.use {r : Rest} {ip : Inode} (h : Survives r ip) (u : Use) : Survives r (u.apply ip) := by
  rcases h with h | h
  · apply Or.inl
    cases u with
    | link =>
      by_cases hmax : linkMax ≤ ip.nlink
      · rw [Use.apply,if_pos hmax]
        exact h
      rw [Use.apply,if_neg hmax]
      have hb := (links_pos_iff ip).mp h
      rw [links_pos_iff]
      simp only [UInt16.le_iff_toNat_le,UInt16.lt_iff_toNat_lt,ne_eq,
        ← UInt16.toNat_inj,UInt16.toNat_add] at hmax hb ⊢
      change ¬32767 ≤ ip.nlink.toNat at hmax
      change ¬(ip.nlink.toNat+1)%65536=0 ∧ (ip.nlink.toNat+1)%65536<32768
      omega
    | change ip' => exact h
  · refine Or.inr ⟨?_,h.2⟩
    cases u with
    | link =>
      rw [Use.apply]
      split <;> exact h.1
    | change ip' => exact if_pos h.1

theorem Survives.useAll {r : Rest} {ip : Inode} (h : Survives r ip) (us : List Use) :
    Survives r (useAll us ip) := by
  induction us generalizing ip with
  | nil => exact h
  | cons u us ih => exact ih (h.use u)

theorem vget_nlink (ei : Slot) : (vget env 0 ei).nlink=ei.linksCount := by
  unfold vget
  simp only [ne_eq,not_true_eq_false,if_false]
  split <;> split <;> rfl

theorem vget_mode (ei : Slot) (h : ei.linksCount≠0) : (vget env 0 ei).mode=ei.mode := by
  unfold vget
  simp only [ne_eq,not_true_eq_false,if_false]
  split <;> split <;> simp [ei2i,h]

/-- A file with a name survives, whatever is done but the removal of a name, exactly when its link
count is below 2^15, or when it has no mode on a writable mount. -/
theorem inactive_keeps_iff (env : Env) (r : Rest) (dev : Bool) (ei : Slot) (h : ei.linksCount≠0) :
    (∀ us,¬Lost (useAll us (vget env 0 ei))
      (inactive env r dev (useAll us (vget env 0 ei),ei))) ↔
    ei.linksCount<0x8000 ∨ (ei.mode=0 ∧ r.rdonly=false) := by
  have hn := vget_nlink env ei
  have hm := vget_mode env ei h
  constructor
  · intro hall
    have h0 := mt (inactive_lost_iff env r dev (vget env 0 ei,ei)).mpr (hall [])
    by_cases hz : ei.mode=0 ∧ r.rdonly=false
    · exact Or.inr hz
    · rw [hm] at h0
      have hpos : 0<(vget env 0 ei).links := Int.not_le.mp fun hle => h0 ⟨hz,hle⟩
      exact Or.inl (hn ▸ ((links_pos_iff _).mp hpos).2)
  · intro hcond us
    have hk : Survives r (vget env 0 ei) := by
      rcases hcond with hlt | hz
      · exact Or.inl ((links_pos_iff _).mpr ⟨hn ▸ h,hn ▸ hlt⟩)
      · exact Or.inr ⟨hm.trans hz.1,hz.2⟩
    intro hlost
    obtain ⟨hmode,hle⟩ := (inactive_lost_iff env r dev (useAll us (vget env 0 ei),ei)).mp hlost
    rcases hk.useAll us with hp | hz
    · exact Int.not_le.mpr hp hle
    · exact hmode hz

def quietRest : Rest where
  rdonly := false
  suspended := false
  time := fun n => ⟨.ofNat (2000+n),0⟩
  truncate := fun c => some { c with size := 0, blocks := 0, block := Vector.replicate 15 0 }

def linkedSlot (links : UInt16) : Slot :=
  { freeSlot 0 0 0 with
    mode := 0x81A4
    linksCount := links
    size := 1024
    blocks := 2
    block := setFirst (Vector.replicate 15 0) 300 }

theorem inactive_keeps_linked :
    ¬Lost (useAll [.link,.link] (vget sampleEnv 0 (linkedSlot 32766)))
      (inactive sampleEnv quietRest false
        (useAll [.link,.link] (vget sampleEnv 0 (linkedSlot 32766)),linkedSlot 32766)) :=
  (inactive_keeps_iff sampleEnv quietRest false (linkedSlot 32766) (by decide)).mpr
    (Or.inl (by decide)) [.link,.link]

/-- A file with 32768 names is cut and loses its mode; its number stays in use. -/
theorem inactive_loses_linked :
    (linkedSlot 0x8000).linksCount≠0 ∧
      (vget sampleEnv 0 (linkedSlot 0x8000)).links=-32768 ∧
      (vget sampleEnv 0 (linkedSlot 0x8000)).contents.size=1024 ∧
      (inactive sampleEnv quietRest false
        (vget sampleEnv 0 (linkedSlot 0x8000),linkedSlot 0x8000)).freed=false ∧
      (inactive sampleEnv quietRest false
        (vget sampleEnv 0 (linkedSlot 0x8000),linkedSlot 0x8000)).slot.size=0 ∧
      (inactive sampleEnv quietRest false
        (vget sampleEnv 0 (linkedSlot 0x8000),linkedSlot 0x8000)).slot.mode=0 := by
  decide +kernel

end Ext2fsX.Reuse
