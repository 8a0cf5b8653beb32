import Ext2fsX.Modes.Privilege
import Ext2fsX.Reuse.TwoRuns

namespace Ext2fsX.Reuse

open Modes (Attr Errno Vnode sampleVnode vnoval)

/-- A request for attributes with the times that are asked for. -/
structure TimedAttr extends Attr where
  accessTime : Option Time
  modifyTime : Option Time
  active : times=(accessTime.isSome || modifyTime.isSome)

/-- The time, what `ext2_truncate` makes of the inode, and how the read of `ext2_update` ends. -/
structure Callees where
  now : Time
  truncate : ℕ → Inode → Inode × Option Errno
  update : Option Errno

def Inode.file (ip : Inode) : Modes.File :=
  ⟨ip.mode,ip.uid,ip.gid,ip.flags,ip.contents.size.toNat⟩

def Inode.chown (v : Vnode) (caller uid gid : UInt32) (ip : Inode) : Inode :=
  let f := Modes.chown v caller uid gid ip.file
  { ip with
    uid := f.uid
    gid := f.gid
    mode := f.mode
    flag := { ip.flag with change := ip.flag.change || decide (f.uid≠ip.uid ∨ f.gid≠ip.gid) } }

def Inode.chmod (v : Vnode) (caller : UInt32) (mode : UInt16) (ip : Inode) : Inode :=
  { ip with
    mode := (Modes.chmod v caller mode ip.file).mode
    flag := { ip.flag with
      change := ip.flag.change || decide ¬(v.ignoreOwnership ∧ caller≠0) } }

/-- `ext2_update` with a read that may fail; there is none if nothing is to be written. -/
def tryUpdate (env : Env) (c : Callees) (dev : Bool) (x : Inode × Slot) :
    (Inode × Slot) × Option Errno :=
  let ip := itimes c.now dev x.1
  if ip.flag.modified ∧ c.update.isSome then ((ip,x.2),c.update)
  else (update env c.now dev x,none)

/-- What is marked before `ext2_itimes` when times are asked for. -/
def Inode.asked (a : TimedAttr) (ip : Inode) : Inode :=
  { ip with flag := { ip.flag with
    access := ip.flag.access || a.accessTime.isSome
    change := ip.flag.change || a.modifyTime.isSome
    update := ip.flag.update || a.modifyTime.isSome } }

def Inode.stamped (a : TimedAttr) (ip : Inode) : Inode :=
  let access := a.accessTime.getD ⟨ip.atime,ip.atimensec⟩
  let modify := a.modifyTime.getD ⟨ip.mtime,ip.mtimensec⟩
  { ip with
    atime := access.sec
    atimensec := access.nsec
    mtime := modify.sec
    mtimensec := modify.nsec }

def setTimes (env : Env) (c : Callees) (a : TimedAttr) (x : Inode × Slot) :
    (Inode × Slot) × Option Errno :=
  if a.times then
    let dev := isDev x.1.mode
    tryUpdate env c dev ((itimes c.now dev (x.1.asked a)).stamped a,x.2)
  else (x,none)

/-- `ext2_setattr` after the size: times and mode. -/
def setTimesMode (v : Vnode) (env : Env) (c : Callees) (caller : UInt32) (a : TimedAttr)
    (x : Inode × Slot) : (Inode × Slot) × Option Errno :=
  match setTimes env c a x with
  | (x,some e) => (x,some e)
  | (x,none) =>
    match a.mode with
    | some m => ((x.1.chmod v caller m,x.2),none)
    | none => (x,none)

def Inode.applyFlags (a : TimedAttr) (ip : Inode) : Inode :=
  { ip with
    flags := a.flags.getD ip.flags
    flag := { ip.flag with change := ip.flag.change || a.flags.isSome } }

def Inode.applyOwner (v : Vnode) (caller : UInt32) (a : TimedAttr) (ip : Inode) : Inode :=
  if a.nuid≠vnoval ∨ a.ngid≠vnoval then ip.chown v caller a.nuid a.ngid else ip

def lockedFlags : UInt32 := sysImmutable ||| sysAppend

def setattr (v : Vnode) (env : Env) (c : Callees) (caller : UInt32) (a : TimedAttr)
    (x : Inode × Slot) : (Inode × Slot) × Option Errno :=
  let ip := x.1.applyFlags a
  if ip.flags &&& lockedFlags≠0 then ((ip,x.2),some .eperm)
  else
    let ip := ip.applyOwner v caller a
    match a.dataSize with
    | none => setTimesMode v env c caller a (ip,x.2)
    | some n =>
      if v.vtype=.dir then ((ip,x.2),some .eisdir)
      else
        match c.truncate n ip with
        | (ip,some e) => ((ip,x.2),some e)
        | (ip,none) => setTimesMode v env c caller a (ip,x.2)

def Inode.attributes (ip : Inode) : UInt32 × UInt32 × UInt32 × UInt16 × UInt64 × List UInt32 :=
  (ip.flags,ip.uid,ip.gid,ip.mode,ip.contents.size,
    [ip.atime,ip.atimensec,ip.mtime,ip.mtimensec,ip.ctime,ip.ctimensec])

def TimedAttr.OnlyFlags (a : TimedAttr) : Prop :=
  a.uid=none ∧ a.gid=none ∧ a.dataSize=none ∧ a.times=false ∧ a.mode=none

/-- A failed request changes no attribute, and one for flags alone does not fail on a file that is
neither immutable nor append-only. -/
structure Atomic (v : Vnode) (env : Env) (c : Callees) (caller : UInt32) (a : TimedAttr)
    (x : Inode × Slot) : Prop where
  same : (setattr v env c caller a x).2≠none →
    (setattr v env c caller a x).1.1.attributes=x.1.attributes
  flags : a.OnlyFlags → x.1.flags &&& lockedFlags=0 → (setattr v env c caller a x).2=none

def SameFlags (a : TimedAttr) (ip : Inode) : Prop := ∀ f∈a.flags,f=ip.flags

/-- The mount ignores the owner that the caller gives, or it is none but the one of the inode. -/
def SameOwner (v : Vnode) (caller : UInt32) (a : TimedAttr) (ip : Inode) : Prop :=
  v.ignoreOwnership ∧ caller≠0 ∨
    (a.nuid=vnoval ∨ a.nuid=ip.uid) ∧ (a.ngid=vnoval ∨ a.ngid=ip.gid)

/-- No time is asked for, or the inode of a device is not written, or nothing is marked as changed
and the access time asked for is the one it has or marks nothing. -/
def SafeTimes (v : Vnode) (caller : UInt32) (a : TimedAttr) (ip : Inode) : Prop :=
  a.times=false ∨ (isDev ip.mode=true ∧ ip.flag.modified=false) ∨
    ((ip.flag.change=false ∧ a.flags=none ∧ SameOwner v caller a ip) ∧
      ip.flag.update=false ∧ a.modifyTime=none ∧
      (a.accessTime=some ⟨ip.atime,ip.atimensec⟩ ∨
        (ip.flag.modified=false ∧ ip.e2flags &&& noatimeFl≠0)))

/-- The flags asked for decide whether the request is refused; a size is safe only where the vnode
is a directory, and then only with the flags and the owner that the inode has. -/
def SafeRequest (v : Vnode) (caller : UInt32) (a : TimedAttr) (ip : Inode) : Prop :=
  if a.flags.getD ip.flags &&& lockedFlags≠0 then SameFlags a ip
  else if a.dataSize=none then SafeTimes v caller a ip
  else v.vtype=.dir ∧ SameFlags a ip ∧ SameOwner v caller a ip

variable {v : Vnode} {env : Env} {c : Callees} {caller : UInt32} {a : TimedAttr}

def Inode.times (ip : Inode) : List UInt32 :=
  [ip.atime,ip.atimensec,ip.mtime,ip.mtimensec,ip.ctime,ip.ctimensec]

/-- The inode after the flags and the owner of a request. -/
structure Prepared (v : Vnode) (caller : UInt32) (a : TimedAttr) (ip y : Inode) : Prop where
  dev : isDev y.mode=isDev ip.mode
  contents : y.contents=ip.contents
  times : y.times=ip.times
  e2flags : y.e2flags=ip.e2flags
  modified : y.flag.modified=ip.flag.modified
  access : y.flag.access=ip.flag.access
  update : y.flag.update=ip.flag.update
  change : y.flag.change=false ↔ ip.flag.change=false ∧ a.flags=none ∧ SameOwner v caller a ip
  same : y.attributes=ip.attributes ↔ SameFlags a ip ∧ SameOwner v caller a ip

theorem isDev_dropSetid (m : UInt16) : isDev (m &&& ~~~Modes.setidBits)=isDev m := by
  unfold isDev
  rw [UInt16.and_assoc]
  rfl

theorem chown_owner (h : ¬(v.ignoreOwnership ∧ caller≠0)) (uid gid : UInt32) (ip : Inode) :
    (ip.chown v caller uid gid).uid=(if uid=vnoval then ip.uid else uid) ∧
      (ip.chown v caller uid gid).gid=(if gid=vnoval then ip.gid else gid) := by
  simp only [Inode.chown,Modes.chown,if_neg h,Inode.file]
  exact ⟨(apply_ite Modes.File.uid _ _ _).trans (ite_self _),
    (apply_ite Modes.File.gid _ _ _).trans (ite_self _)⟩

theorem chown_mode (h : ¬(v.ignoreOwnership ∧ caller≠0)) (uid gid : UInt32) (f : Modes.File) :
    isDev (Modes.chown v caller uid gid f).mode=isDev f.mode ∧
      ((Modes.chown v caller uid gid f).uid=f.uid ∧ (Modes.chown v caller uid gid f).gid=f.gid →
        (Modes.chown v caller uid gid f).mode=f.mode) := by
  unfold Modes.chown
  rw [if_neg h]
  dsimp only
  by_cases hc : (f.uid≠(if uid=vnoval then f.uid else uid) ∨
      f.gid≠(if gid=vnoval then f.gid else gid)) ∧ caller=0
  · rw [if_pos hc]
    refine ⟨isDev_dropSetid f.mode,fun hs => ?_⟩
    rcases hc.1 with hne | hne
    · exact absurd hs.1.symm hne
    · exact absurd hs.2.symm hne
  · rw [if_neg hc]
    exact ⟨rfl,fun _ => rfl⟩

/-- The set-id bits and the mark change only with the owner. -/
theorem applyOwner_eq (ip : Inode) : ∃ mode uid gid change,
    ip.applyOwner v caller a={ ip with uid, gid, mode, flag := { ip.flag with change } } ∧
    (change=false ↔ ip.flag.change=false ∧ uid=ip.uid ∧ gid=ip.gid) ∧
    isDev mode=isDev ip.mode ∧ (uid=ip.uid ∧ gid=ip.gid → mode=ip.mode) ∧
    (SameOwner v caller a ip ↔ uid=ip.uid ∧ gid=ip.gid) := by
  unfold Inode.applyOwner SameOwner
  by_cases hn : a.nuid≠vnoval ∨ a.ngid≠vnoval
  · rw [if_pos hn]
    by_cases hv : v.ignoreOwnership ∧ caller≠0
    · refine ⟨ip.mode,ip.uid,ip.gid,ip.flag.change,?_⟩
      simp [Inode.chown,Modes.chown,Inode.file,hv]
    · obtain ⟨hdev,hmode⟩ := @chown_mode v caller hv a.nuid a.ngid ip.file
      obtain ⟨huid,hgid⟩ := @chown_owner v caller hv a.nuid a.ngid ip
      refine ⟨_,_,_,_,rfl,?_,hdev,hmode,(or_iff_right hv).trans ?_⟩
      · rw [Bool.or_eq_false_iff,decide_eq_false_iff_not,not_or,not_not,not_not]
      · change _ ↔ (ip.chown v caller a.nuid a.ngid).uid=_ ∧ (ip.chown v caller a.nuid a.ngid).gid=_
        rw [huid,hgid]
        simp only [ite_eq_left_iff,Classical.or_iff_not_imp_left]
  · simp only [not_or,not_not] at hn
    refine ⟨ip.mode,ip.uid,ip.gid,ip.flag.change,?_⟩
    simp [hn]

theorem getD_flags_iff (ip : Inode) : a.flags.getD ip.flags=ip.flags ↔ SameFlags a ip := by
  unfold SameFlags
  cases a.flags <;> simp

theorem prepared (ip : Inode) :
    Prepared v caller a ip ((ip.applyFlags a).applyOwner v caller a) := by
  obtain ⟨mode,uid,gid,change,he,hchange,hdev,hmode,howner⟩ := @applyOwner_eq v caller a (ip.applyFlags a)
  change SameOwner v caller a ip ↔ uid=ip.uid ∧ gid=ip.gid at howner
  change uid=ip.uid ∧ gid=ip.gid → mode=ip.mode at hmode
  rw [he]
  refine ⟨hdev,rfl,rfl,rfl,rfl,rfl,rfl,?_,?_⟩
  · rw [howner,hchange]
    simp [Inode.applyFlags,and_assoc]
  · rw [howner,←getD_flags_iff]
    simp only [Inode.attributes,Inode.applyFlags,Prod.mk.injEq,and_true]
    exact ⟨fun ⟨hf,hu,hg,_⟩ => ⟨hf,hu,hg⟩,fun ⟨hf,hu,hg⟩ => ⟨hf,hu,hg,hmode ⟨hu,hg⟩⟩⟩

/-- `ext2_itimes` marks the inode of what is no device as modified when anything is marked. -/
theorem itimes_marks (now : Time) (dev : Bool) (ip : Inode) :
    ∃ l,(itimes now dev ip).flag=⟨false,false,false,ip.flag.modified || (!dev &&
      (ip.flag.access && (ip.e2flags &&& noatimeFl==0) || ip.flag.change || ip.flag.update)),l⟩ := by
  unfold itimes
  dsimp only
  generalize (ip.flag.access && (ip.e2flags &&& noatimeFl==0))=access
  by_cases h : (!access && !ip.flag.change && !ip.flag.update)=true
  · rw [if_pos h]
    exact ⟨ip.flag.lazymod,by simp_all⟩
  · rw [if_neg h]
    have hmark : (access || ip.flag.change || ip.flag.update)=true := by
      revert h
      cases access <;> cases ip.flag.change <;> cases ip.flag.update <;> decide
    exact ⟨_,by rw [hmark,Bool.and_true]⟩

theorem itimes_times (now : Time) (dev : Bool) (ip : Inode) :
    (itimes now dev ip).mtime=(if ip.flag.update then now.sec else ip.mtime) ∧
      (itimes now dev ip).mtimensec=(if ip.flag.update then now.nsec else ip.mtimensec) ∧
      (itimes now dev ip).ctime=(if ip.flag.change then now.sec else ip.ctime) ∧
      (itimes now dev ip).ctimensec=(if ip.flag.change then now.nsec else ip.ctimensec) := by
  unfold itimes
  dsimp only
  split
  · simp_all
  · exact ⟨rfl,rfl,rfl,rfl⟩

theorem itimes_idle {ip : Inode} {m l : Bool} (h : ip.flag=⟨false,false,false,m,l⟩) (now : Time)
    (dev : Bool) : itimes now dev ip=ip := by
  obtain ⟨⟩ := ip
  simp_all [itimes]

theorem setTimes_eq (ht : a.times=true) (x : Inode × Slot) :
    let ip := itimes c.now (isDev x.1.mode) (x.1.asked a)
    ((setTimes env c a x).2≠none ↔ ip.flag.modified=true ∧ c.update≠none) ∧
      ((setTimes env c a x).2≠none → (setTimes env c a x).1.1=ip.stamped a) := by
  intro ip
  obtain ⟨l,hflag⟩ := itimes_marks c.now (isDev x.1.mode) (x.1.asked a)
  have hidle : itimes c.now (isDev x.1.mode) (ip.stamped a)=ip.stamped a :=
    @itimes_idle (ip.stamped a) _ _ hflag _ _
  rw [setTimes,if_pos ht]
  dsimp only
  rw [tryUpdate,hidle]
  by_cases hm : (ip.stamped a).flag.modified=true ∧ c.update.isSome=true
  · rw [if_pos hm]
    exact ⟨⟨fun h => ⟨hm.1,h⟩,And.right⟩,fun _ => rfl⟩
  · rw [if_neg hm]
    refine ⟨⟨fun h => absurd rfl h,fun h => ?_⟩,fun h => absurd rfl h⟩
    exact absurd ⟨h.1,Option.isSome_iff_ne_none.mpr h.2⟩ hm

/-- Callees that fail. -/
def failing (now : Time) : Callees where
  now
  truncate _ ip :=
    ({ ip with contents := { ip.contents with size := ip.contents.size+1 } },some (.other 5))
  update := some (.other 5)

theorem succ_ne (n : UInt32) : n+1≠n := by
  intro h
  have hn := congrArg UInt32.toNat h
  rw [UInt32.toNat_add] at hn
  have : (1 : UInt32).toNat=1 := rfl
  omega

theorem ite_succ {b : Bool} {n : UInt32} (h : (if b then n+1 else n)=n) : b=false := by
  cases b with
  | false => rfl
  | true => exact absurd h (succ_ne n)

theorem Prepared.modified_iff {ip y : Inode} (hy : Prepared v caller a ip y) (now : Time) :
    (itimes now (isDev y.mode) (y.asked a)).flag.modified=false ↔ ip.flag.modified=false ∧
      (isDev ip.mode=true ∨ ((ip.flag.access || a.accessTime.isSome) &&
        (ip.e2flags &&& noatimeFl==0))=false ∧ y.flag.change=false ∧ ip.flag.update=false ∧
          a.modifyTime=none) := by
  obtain ⟨l,hl⟩ := itimes_marks now (isDev y.mode) (y.asked a)
  rw [hl]
  simp only [Inode.asked,hy.dev,hy.e2flags,hy.modified,hy.access,hy.update]
  generalize ((ip.flag.access || a.accessTime.isSome) && (ip.e2flags &&& noatimeFl==0))=access
  cases isDev ip.mode <;> cases a.modifyTime <;> simp [and_assoc]

theorem times_safe_iff {ip y : Inode} (ht : a.times=true) (hy : Prepared v caller a ip y) (ei : Slot) :
    (∀ c,(setTimes env c a (y,ei)).2≠none → (setTimes env c a (y,ei)).1.1.attributes=ip.attributes) ↔
      SafeTimes v caller a ip := by
  have hact := a.active
  rw [ht] at hact
  have htimes := hy.times
  simp only [Inode.times,List.cons.injEq,and_true] at htimes
  obtain ⟨-,-,hmtime,hmtimensec,hctime,hctimensec⟩ := htimes
  have hfails (c : Callees) := @setTimes_eq env c a ht (y,ei)
  dsimp only at hfails
  constructor
  · intro h
    by_cases hm : (itimes ⟨0,0⟩ (isDev y.mode) (y.asked a)).flag.modified=true
    · have hall (now : Time) : ((itimes now (isDev y.mode) (y.asked a)).stamped a).attributes=
          ip.attributes := by
        have hm' : (itimes now (isDev y.mode) (y.asked a)).flag.modified=true := by
          rw [←Bool.not_eq_false,hy.modified_iff] at hm ⊢
          exact hm
        have herr := (hfails (failing now)).1.mpr ⟨hm',nofun⟩
        rw [←h _ herr,(hfails (failing now)).2 herr]
        rfl
      simp only [Inode.attributes,Prod.mk.injEq,List.cons.injEq,Inode.stamped,(itimes_times ..).2.2.1] at hall
      -- another clock would show in the time of the change, then in that of the modification
      obtain ⟨-,-,-,-,-,hat,hatn,-,-,hct,-⟩ := hall ⟨ip.ctime+1,0⟩
      change (if y.flag.change || a.modifyTime.isSome then ip.ctime+1 else y.ctime)=ip.ctime at hct
      rw [hctime] at hct
      obtain ⟨hch,hmt⟩ := Bool.or_eq_false_iff.mp (ite_succ hct)
      rw [Option.isSome_eq_false_iff,Option.isNone_iff_eq_none] at hmt
      obtain ⟨-,-,-,-,-,-,-,hmod,-⟩ := hall ⟨ip.mtime+1,0⟩
      rw [hmt,Option.getD_none,(itimes_times ..).1] at hmod
      change (if y.flag.update || a.modifyTime.isSome then ip.mtime+1 else y.mtime)=ip.mtime at hmod
      rw [hmtime] at hmod
      have hu := (Bool.or_eq_false_iff.mp (ite_succ hmod)).1
      obtain ⟨t,hacc⟩ : ∃ t,a.accessTime=some t := by
        rw [hmt,Option.isSome_none,Bool.or_false] at hact
        exact Option.isSome_iff_exists.mp hact.symm
      rw [hacc] at hat hatn
      refine .inr (.inr ⟨hy.change.mp hch,hy.update ▸ hu,hmt,.inl ?_⟩)
      rw [hacc,←hat,←hatn]
      rfl
    · rw [Bool.not_eq_true,hy.modified_iff] at hm
      refine .inr ?_
      obtain ⟨hf,hd | ⟨hacc,hch,hu,hmt⟩⟩ := hm
      · exact .inl ⟨hd,hf⟩
      · rw [hmt,Option.isSome_none,Bool.or_false] at hact
        rw [←hact,Bool.or_true,Bool.true_and] at hacc
        exact .inr ⟨hy.change.mp hch,hu,hmt,.inr ⟨hf,by simpa using hacc⟩⟩
  · rintro (h | hdev | ⟨hch,hu,hmt,hat⟩) c herr
    · simp [h] at ht
    · have hno := ((hfails c).1.mp herr).1
      rw [←Bool.not_eq_false,hy.modified_iff] at hno
      exact absurd ⟨hdev.2,.inl hdev.1⟩ hno
    · have hchange := hy.change.mpr hch
      rcases hat with hat | ⟨hf,hno⟩
      · rw [(hfails c).2 herr]
        obtain ⟨hmode,-,huid,hgid,-,hfl,-,hcon⟩ := itimes_kept c.now (isDev y.mode) (y.asked a)
        obtain ⟨hm,hmns,hc,hcns⟩ := itimes_times c.now (isDev y.mode) (y.asked a)
        have hsame := hy.same.mpr ⟨by simp [SameFlags,hch.2.1],hch.2.2⟩
        generalize itimes c.now (isDev y.mode) (y.asked a)=z at *
        simp only [Inode.asked,hchange,hu,hy.update,hmt,Option.isSome_none,Bool.or_false,
          Bool.false_eq_true,if_false] at hfl huid hgid hmode hcon hm hmns hc hcns
        simp only [Inode.attributes,Prod.mk.injEq] at hsame ⊢
        simp [Inode.stamped,hat,hmt,hfl,huid,hgid,hmode,hcon,hm,hmns,hc,hcns,hsame,hmtime,hmtimensec,
          hctime,hctimensec]
      · have hm := ((hfails c).1.mp herr).1
        rw [←Bool.not_eq_false,hy.modified_iff] at hm
        exact absurd ⟨hf,.inr ⟨by simp [hno],hchange,hu,hmt⟩⟩ hm

theorem setTimesMode_failed (y : Inode × Slot) :
    ((setTimesMode v env c caller a y).2≠none ↔ (setTimes env c a y).2≠none) ∧
      ((setTimes env c a y).2≠none → setTimesMode v env c caller a y=setTimes env c a y) := by
  unfold setTimesMode
  generalize setTimes env c a y=r
  obtain ⟨z,_ | e⟩ := r
  · cases a.mode <;> exact ⟨Iff.rfl,fun h => absurd rfl h⟩
  · exact ⟨Iff.rfl,fun _ => rfl⟩

def setAppend : TimedAttr where
  flags := some 4
  uid := none
  gid := none
  dataSize := none
  times := false
  mode := none
  accessTime := none
  modifyTime := none
  active := rfl

end Ext2fsX.Reuse
