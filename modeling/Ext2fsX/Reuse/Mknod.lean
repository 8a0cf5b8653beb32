import Ext2fsX.Modes.Attributes
import Ext2fsX.Reuse.Lifetime

namespace Ext2fsX.Reuse

open Modes (vnoval)

/-- With which `ext2_vinit` makes the vnode; `i_rdev` is `i_db[0]`. -/
def vinitRdev (ip : Inode) : Option UInt32 :=
  if isDev ip.mode then some (ip.contents.block.get 0) else none

/-- Over an inode not in core: the device number of the vnode, the inode and its slot. -/
def mknod (env : Env) (mode : UInt16) (rdev : UInt32) (read slot : Slot) :
    Option UInt32 × Core × Slot :=
  let q := Request.mknod mode (if rdev≠vnoval then some rdev else none)
  let ip := vget env q.mode read
  let c : Core := ⟨ip,isDev ip.mode,false⟩
  let y := q.finish env (q.build env c slot)
  (vinitRdev ip,{ c with ip := y.1 },y.2)

/-- `ext2_inactive` and `ext2_reclaim`. -/
def putAway (env : Env) (r : Rest) (now : Time) (c : Core) (slot : Slot) : Slot :=
  let l := inactive env r c.dev (c.ip,slot)
  if l.ip.flag.lazymod then
    (update env now c.dev ({ l.ip with flag := { l.ip.flag with modified := true } },l.slot)).2
  else l.slot

/-- The slot of a device in use. -/
def Slot.IsDevice (ei : Slot) (d : UInt32) : Prop :=
  ei.linksCount≠0 ∧ isDev ei.mode=true ∧ ei.block.get 0=d

/-- The table after the new inode has been put away. -/
def Volume.stored (fs : Mount.Fs) (s : Volume) (ino : ℕ) (slot : Slot) : Volume :=
  { s with table := Function.update s.table (fs.updateSlot ino) slot }

theorem Volume.read_stored (fs : Mount.Fs) (s : Volume) (ino : ℕ) (slot wild : Slot) :
    (s.stored fs ino slot).read fs wild ino=
      if fs.vgetSlot ino=fs.updateSlot ino ∧ (fs.vgetSlot ino).offset+128≤fs.blocksize then slot
      else s.read fs wild ino := by
  unfold Volume.read
  by_cases hin : (fs.vgetSlot ino).offset+128≤fs.blocksize
  · rw [if_pos hin,if_pos hin]
    by_cases he : fs.vgetSlot ino=fs.updateSlot ino
    · rw [if_pos ⟨he,hin⟩,he]
      exact Function.update_self ..
    · rw [if_neg (fun h => he h.1)]
      exact Function.update_of_ne he ..
  · rw [if_neg hin,if_neg hin,if_neg (fun h => hin h.2)]

variable {env : Env} {mode : UInt16} {d : UInt32} {ei : Slot}

theorem not_plain_of_isDev (h : isDev mode=true) : isDir mode=false ∧ isReg mode=false := by
  unfold isDev at h
  rcases Bool.or_eq_true_iff.mp h with h | h
  · rw [isDir,isReg,beq_iff_eq.mp h]
    decide
  · rw [isDir,isReg,beq_iff_eq.mp h]
    decide

/-- The mode is that of the call unless the slot looks like a file or a directory in use. -/
theorem vinitRdev_vget (env : Env) (createmode : UInt16) (ei : Slot) :
    vinitRdev (vget env createmode ei)=
      if isDir (ei2i env ei).mode || isReg (ei2i env ei).mode then none
      else if isDev (if createmode≠0 then createmode else (ei2i env ei).mode) then
        some (ei.block.get 0)
      else none := by
  have hgen (ip : Inode) (a : UInt32) (b : Flag) :
      vinitRdev (if ip.gen=0 then { ip with gen := a, flag := b } else ip)=vinitRdev ip := by
    split
    · rfl
    · rfl
  unfold vget
  rw [hgen]
  by_cases hplain : (isDir (ei2i env ei).mode || isReg (ei2i env ei).mode)=true
  · rw [if_pos hplain,if_pos hplain]
    have hdev : isDev (ei2i env ei).mode≠true := by
      intro h
      rw [(not_plain_of_isDev h).1,(not_plain_of_isDev h).2] at hplain
      cases hplain
    exact if_neg hdev
  · rw [if_neg hplain,if_neg hplain]
    by_cases h0 : createmode=0
    · rw [h0]
      rfl
    · rw [if_pos h0,if_pos h0]
      rfl

theorem vinitRdev_load (env : Env) (ei : Slot) (d : UInt32) :
    vinitRdev (vget env 0 ei)=some d ↔ ei.IsDevice d := by
  have hmode : (ei2i env ei).mode=if ei.linksCount≠0 then ei.mode else 0 := rfl
  rw [vinitRdev_vget,if_neg (show ¬(0 : UInt16)≠0 from fun h => h rfl),hmode]
  unfold Slot.IsDevice
  by_cases hl : ei.linksCount=0
  · have h0 : isDev 0=false := by decide
    simp [hl,h0]
  · by_cases hd : isDev ei.mode=true
    · simp [hl,hd,not_plain_of_isDev hd]
    · simp [hl,hd]

theorem update_frame (now : Time) (dev : Bool) (x : Inode × Slot) :
    (update env now dev x).1.mode=x.1.mode ∧ (update env now dev x).1.nlink=x.1.nlink ∧
      (update env now dev x).1.contents=x.1.contents ∧
      (update env now dev x).1.flag.modified=false := by
  have hk := itimes_kept now dev x.1
  unfold update
  dsimp only
  split
  · exact ⟨hk.mode,hk.nlink,hk.contents,rfl⟩
  · rename_i h
    exact ⟨hk.mode,hk.nlink,hk.contents,Bool.eq_false_iff.mpr h⟩

/-- The write of a device node waits until it is reclaimed. -/
theorem putAway_device {r : Rest} {c : Core} (now : Time) (slot : Slot) (hr : r.rdonly=false)
    (hdev : c.dev=true) (hmode : isDev c.ip.mode=true) (hlinks : c.ip.nlink=1)
    (hdue : c.ip.flag.change=true) (hmod : c.ip.flag.modified=false) :
    (putAway env r now c slot).IsDevice d ↔ c.ip.contents.block.get 0=d := by
  have h0 : c.ip.mode≠0 := by
    intro h
    rw [h] at hmode
    exact absurd hmode (by decide)
  have hl : ¬(discardPrealloc c.ip).links≤0 := by
    rw [show (discardPrealloc c.ip).links=1 from
      congrArg (fun n : UInt16 => n.toBitVec.toInt) hlinks]
    decide
  let ip := itimes (r.time 1) true (discardPrealloc c.ip)
  have hflag : ip.flag=⟨false,false,false,false,true⟩ := by
    simp [ip,itimes,discardPrealloc,hdue,hmod]
  have hleft : inactive env r true (c.ip,slot)=⟨ip,slot,false,false,ip.mode==0⟩ := by
    have hset : settle env r true (discardPrealloc c.ip,slot)=(ip,slot) := by
      have hup : update env (r.time 1) true (discardPrealloc c.ip,slot)=(ip,slot) :=
        if_neg (by rw [hflag]; exact Bool.false_ne_true)
      simp [settle,updateVp,discardPrealloc,hdue,hr,← hup]
    unfold inactive
    rw [if_neg (fun h => h0 h.1),if_neg hl,hset]
  have hput : putAway env r now c slot=
      i2ei env { ip with flag := ⟨false,false,false,true,true⟩ } slot := by
    unfold putAway
    rw [hdev,hleft]
    dsimp only
    rw [hflag,if_pos rfl]
    simp [update,itimes]
  have hk := itimes_kept (r.time 1) true (discardPrealloc c.ip)
  rw [hput]
  change ip.nlink≠0 ∧ isDev ip.mode=true ∧ ip.contents.block.get 0=d ↔ _
  rw [hk.mode,hk.nlink,hk.contents]
  simp [discardPrealloc,hlinks,hmode]

theorem isDev_dropSgid (env : Env) (mode : UInt16) : isDev (dropSgid env mode)=isDev mode := by
  unfold dropSgid
  split
  · unfold isDev
    rw [UInt16.and_assoc,show (~~~0x400 &&& 0xF000 : UInt16)=0xF000 by decide]
  · rfl

theorem typed_of_isDev (h : isDev mode=true) : typed mode=mode := by
  unfold typed
  apply if_neg
  intro h0
  unfold isDev at h
  rw [h0] at h
  cases h

/-- What `ext2_mknod` leaves in core when its vnode is a device. -/
theorem mknod_core (env : Env) (r : Rest) (now : Time) (read slot : Slot) (hr : r.rdonly=false)
    (h : isDev mode=true) (hv : (mknod env mode d read slot).2.1.dev=true) (e : UInt32) :
    (putAway env r now (mknod env mode d read slot).2.1 (mknod env mode d read slot).2.2).IsDevice e ↔
      (if d≠vnoval then d else 0)=e := by
  let q := Request.mknod mode (if d≠vnoval then some d else none)
  obtain ⟨hm,hn,hc,hf⟩ := @update_frame env (env.time 1) (mknod env mode d read slot).2.1.dev
    (setup env (q.setMode env) q.nlink (q.owner env) (vallocBody env (vget env q.mode read)),slot)
  rw [putAway_device now _ hr hv ?_ hn rfl hf]
  · have hget (b : Vector UInt32 15) (hb : b=Vector.replicate 15 0) :
        (b.set 0 ((if d≠vnoval then some d else none).getD (b.get 0))).get 0=
          if d≠vnoval then d else 0 := by
      refine (Vector.getElem_set_self (by decide)).trans ?_
      rw [hb]
      by_cases hd : d=vnoval
      · rw [if_neg (not_not.mpr hd),if_neg (not_not.mpr hd)]
        rfl
      · rw [if_pos hd,if_pos hd]
        rfl
    rw [← hget _ (congrArg Contents.block hc)]
    rfl
  · have hmode : (mknod env mode d read slot).2.1.ip.mode=dropSgid env (typed mode) := hm
    rw [hmode,isDev_dropSgid,typed_of_isDev h,h]

/-- When the new vnode, and the one read after its reclaim, have the device number asked for. -/
theorem mknod_rdev_iff (fs : Mount.Fs) (ino : ℕ) (s : Volume) (wild wild' : Slot) (env env' : Env)
    (r : Rest) (now : Time) (mode : UInt16) (d : UInt32) (hdev : isDev mode=true)
    (hr : r.rdonly=false) :
    let old := s.read fs wild ino
    let x := mknod env mode d old (s.table (fs.updateSlot ino))
    let s' := s.stored fs ino (putAway env r now x.2.1 x.2.2)
    x.1=some d ∧ vinitRdev (vget env' 0 (s'.read fs wild' ino))=some d ↔
      (isDir (ei2i env old).mode || isReg (ei2i env old).mode)=false ∧ old.block.get 0=d ∧
        if fs.vgetSlot ino=fs.updateSlot ino ∧ (fs.vgetSlot ino).offset+128≤fs.blocksize then
          d≠vnoval
        else (s.read fs wild' ino).IsDevice d := by
  intro old x s'
  have h0 : mode≠0 := by
    rintro rfl
    exact absurd hdev (by decide)
  have hx : x.1=vinitRdev (vget env (typed mode) old) := rfl
  rw [vinitRdev_vget,typed_of_isDev hdev,if_pos h0,hdev] at hx
  cases hplain : isDir (ei2i env old).mode || isReg (ei2i env old).mode with
  | true =>
    rw [hx,hplain]
    simp
  | false =>
    rw [hplain] at hx
    have hvn : x.2.1.dev=true := by
      by_contra hne
      have hnone : x.1=none := if_neg hne
      rw [hnone] at hx
      cases hx
    have hcore := mknod_core env r now old (s.table (fs.updateSlot ino)) hr hdev hvn d
    rw [hx,vinitRdev_load,s.read_stored]
    simp only [Bool.false_eq_true,if_false,if_true,Option.some.injEq,true_and]
    apply and_congr_right
    intro hd
    by_cases hsame : fs.vgetSlot ino=fs.updateSlot ino ∧ (fs.vgetSlot ino).offset+128≤fs.blocksize
    · rw [if_pos hsame,if_pos hsame,hcore]
      by_cases hv : d=vnoval
      · rw [hv]
        decide
      · simp [hv]
    · rw [if_neg hsame,if_neg hsame]

def sampleRest : Rest := ⟨false,false,fun n => ⟨.ofNat (2000+n),0⟩,some⟩

def deviceSlot : Slot := { freeSlot 0 0 0 with block := Vector.replicate 15 0x103 }

def deviceVolume : Volume := ⟨fun _ => ⟨none,false,0,[]⟩,fun _ => deviceSlot⟩

def smallFs : Mount.Fs := Mount.geometry Mount.smallMount Mount.smallDisk

theorem mknod_rdev_kept : (mknod sampleEnv 0x2180 0x103 (deviceVolume.read smallFs deviceSlot 12)
    (deviceVolume.table (smallFs.updateSlot 12))).1=some 0x103 := by
  have hread : deviceVolume.read smallFs deviceSlot 12=deviceSlot := ite_self _
  apply And.left
  apply (mknod_rdev_iff smallFs 12 deviceVolume deviceSlot deviceSlot sampleEnv sampleEnv sampleRest
    ⟨0,0⟩ 0x2180 0x103 (by decide) rfl).mpr
  rw [hread,if_pos (by decide)]
  exact ⟨by decide,by decide,by decide⟩

/-- Over a slot of zeros the vnode is device 0; the node is right when it is loaded again. -/
theorem mknod_rdev_zero :
    let x := mknod sampleEnv 0x2180 0x103 (freeSlot 0 0 0) (freeSlot 0 0 0)
    x.1=some 0 ∧ vinitRdev (vget sampleEnv 0
      (putAway sampleEnv sampleRest ⟨3000,0⟩ x.2.1 x.2.2))=some 0x103 := by
  decide +kernel

end Ext2fsX.Reuse
