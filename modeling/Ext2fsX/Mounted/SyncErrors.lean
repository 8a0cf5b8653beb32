import Ext2fsX.Mounted.ReadOnly

namespace Ext2fsX.Mounted

open Framework

/-- Whether it is to wait, whether an inode or `spec_fsync` has an error, the time, and which writes
succeed. -/
structure SyncAnswers where
  wait : Bool
  failed : Bool
  time : UInt32
  desc : ℕ → Bool
  super : Bool

variable (l : Layout) (a : SyncAnswers)

/-- With writes that may fail: a descriptor block is unmarked before it is written, and the result
of that write is not looked at. -/
def trySbupdate (m : Core) (dev : Device) : (Core × Device) × Bool :=
  (({ m with vol := { m.vol with descDirty := unmark m.vol.descDirty l.dbpg } },
    { dev with
      desc := writeBack l.descBlock m.vol.desc (fun b => m.vol.descDirty b && a.desc b) l.dbpg dev.desc
      super := if a.super then m.image else dev.super }),a.wait && !a.super)

def Core.stamped (m : Core) (time : UInt32) : Core :=
  { m with es := { m.es with wtime := time },vol := { m.vol with sDirt := false } }

variable (x : Core × Device)

/-- `ext2_sync` of a writable mount, and whether it returns an error. -/
def trySync : (Core × Device) × Bool :=
  if x.1.vol.sDirt then
    let r := trySbupdate l a (x.1.stamped a.time) x.2
    (r.1,a.failed || r.2)
  else (x,a.failed)

inductive Change where
  | change (m : Core)
  | sync (a : SyncAnswers)

def syncMachine : Machine (Core × Device) Change where
  init x := Synced l x.1 x.2
  next
    | .change m,x => some (m,x.2)
    | .sync a,x => some (trySync l a x).1

structure StaleMarked : Prop where
  desc : Backed l x.1 x.2
  super : x.1.vol.sDirt=false → x.1.image=x.2.super

/-- What is not written stays marked, and if the call waits and returns 0 all is written. In core
only the time and the marks change. -/
structure SyncRight : Prop where
  marked : StaleMarked l (trySync l a x).1
  written : a.wait=true → (trySync l a x).2=false → Synced l (trySync l a x).1.1 (trySync l a x).1.2

/-- If the superblock is marked, its write succeeds and that of every descriptor that differs. -/
def WritesSucceed : Prop :=
  x.1.vol.sDirt=true → (a.super=true ∨ (x.1.stamped a.time).image=x.2.super) ∧
    ∀ i<l.blocks.groupsCount,x.1.vol.desc i≠x.2.desc i → a.desc (l.descBlock i)=true

/-- A change marks what it changes, and the writes of a call succeed. -/
def ChangeOk : Change → Prop
  | .change m => Marking l x.1.vol m.vol ∧ (m.vol.sDirt=false → m.es=x.1.es)
  | .sync a => WritesSucceed l a x

variable {l a} {x : Core × Device}

structure Steady (l : Layout) (x : Core × Device) : Prop where
  backed : Backed l x.1 x.2
  synced : x.1.vol.sDirt=false → Synced l x.1 x.2

theorem trySync_synced_iff (h : Backed l x.1 x.2) (hd : x.1.vol.sDirt=true) :
    Synced l (trySync l a x).1.1 (trySync l a x).1.2 ↔ WritesSucceed l a x := by
  rw [trySync,if_pos hd]
  constructor
  · rintro ⟨hs,hi⟩ -
    refine ⟨?_,fun i hlt hne => ?_⟩
    · by_cases ha : a.super=true
      · exact .inl ha
      · exact .inr (hs.trans (if_neg ha))
    · by_contra ha
      refine hne ((hi i hlt).trans ?_)
      simp [trySbupdate,writeBack_eq,ha]
  · intro hw
    obtain ⟨hs,hi⟩ := hw hd
    refine ⟨?_,fun i hlt => ?_⟩
    · by_cases ha : a.super=true
      · exact (if_pos ha).symm
      · exact (hs.resolve_left ha).trans (if_neg ha).symm
    · by_cases hne : x.1.vol.desc i=x.2.desc i
      · simp [trySbupdate,Core.stamped,writeBack_eq,hne]
      · simp [trySbupdate,Core.stamped,writeBack_eq,hi i hlt hne,h i hlt hne,l.descBlock_lt i hlt]

/-- The call has taken all marks away. -/
theorem StaleMarked.synced (h : StaleMarked l (trySync l a x).1) (hd : x.1.vol.sDirt=true) :
    Synced l (trySync l a x).1.1 (trySync l a x).1.2 := by
  rw [trySync,if_pos hd] at h ⊢
  refine ⟨h.super rfl,fun i hi => ?_⟩
  by_contra hne
  exact Bool.false_ne_true ((if_pos (l.descBlock_lt i hi)).symm.trans (h.desc i hi hne))

theorem Steady.step {y : Core × Device} {c : Change} (h : Steady l x) (hok : ChangeOk l x c)
    (hn : (syncMachine l).next c x=some y) : Steady l y := by
  cases c with
  | change m =>
    obtain rfl := Option.some.inj hn
    obtain ⟨hm,he⟩ := hok
    refine ⟨h.backed.step hm.keep fun i hi hne => ?_,fun hs => ?_⟩
    · by_cases hc : m.vol.desc i=x.1.vol.desc i
      · exact .inl (hc ▸ hne)
      · exact .inr (hm.cover i hi hc)
    · obtain ⟨hv,hdesc,hb,hi⟩ := hm.clean hs
      obtain ⟨h1,h2⟩ := h.synced hv
      refine ⟨?_,fun i hlt => by rw [hdesc,h2 i hlt]⟩
      rw [← h1,Core.image,Core.image,he hs,hb,hi]
  | sync a =>
    obtain rfl := Option.some.inj hn
    by_cases hd : x.1.vol.sDirt=true
    · have hs := (trySync_synced_iff h.backed hd).mpr hok
      exact ⟨hs.backed,fun _ => hs⟩
    · rw [trySync,if_neg hd]
      exact h

/-- In every run of changes that mark what they change and calls whose writes succeed, what differs
from the disk is marked; and in such a state no other calls are right. -/
theorem sync_right_iff (l : Layout) (x : Core × Device) (h : (syncMachine l).Reach (ChangeOk l) x) :
    StaleMarked l x ∧ ∀ a,SyncRight l a x ↔ WritesSucceed l a x := by
  have hx : Steady l x := by
    refine Machine.Reach.invariant (fun s hs => ⟨hs.backed,fun _ => hs⟩) ?_ h
    exact fun s s' c hs hok hn => hs.step hok hn
  refine ⟨⟨hx.backed,fun hs => (hx.synced hs).super⟩,fun a => ?_⟩
  by_cases hd : x.1.vol.sDirt=true
  · rw [← trySync_synced_iff hx.backed hd]
    exact ⟨fun hr => hr.marked.synced hd,fun hy => ⟨⟨hy.backed,fun _ => hy.super⟩,fun _ _ => hy⟩⟩
  · have hs := hx.synced (Bool.eq_false_iff.mpr hd)
    have hsync : trySync l a x=(x,a.failed) := if_neg hd
    refine iff_of_true ⟨?_,fun _ _ => ?_⟩ (fun ht => absurd ht hd)
    · rw [hsync]
      exact ⟨hs.backed,fun _ => hs.super⟩
    · rw [hsync]
      exact hs

def inCore (desc : ℕ → Desc) (dirty : Bool) : Core :=
  let m := mountCore smallDevice false 0 [] false 0
  { m with
    es := smallDevice.super.header
    vol := { m.vol with desc := desc,descDirty := fun _ => dirty,sDirt := dirty } }

def changed : Core := inCore (fun _ => ⟨0,0,0⟩) true

theorem sync_right_changed :
    SyncRight smallLayout ⟨true,false,1,fun _ => true,true⟩ (changed,smallDevice) := by
  have hstart : (syncMachine smallLayout).Reach (ChangeOk smallLayout)
      (inCore smallDevice.desc false,smallDevice) := .start ⟨rfl,fun _ _ => rfl⟩
  have hstep : (syncMachine smallLayout).Reach (ChangeOk smallLayout) (changed,smallDevice) :=
    hstart.step (a := .change changed) ⟨⟨fun _ _ => rfl,fun _ _ _ => rfl,nofun⟩,nofun⟩ rfl
  exact ((sync_right_iff smallLayout _ hstep).2 _).mpr fun _ => ⟨.inl rfl,fun _ _ _ => rfl⟩

/-- If the changed descriptor is not written, the call returns 0 and leaves no mark; if the
superblock is not, an error and no mark. -/
theorem sync_loses_marks :
    let x := (changed,smallDevice)
    let y := trySync smallLayout ⟨true,false,1,fun _ => false,true⟩ x
    let z := trySync smallLayout ⟨true,false,1,fun _ => true,false⟩ x
    (y.2=false ∧ y.1.1.vol.descDirty 0=false ∧ y.1.1.vol.sDirt=false ∧
      y.1.1.vol.desc 0≠y.1.2.desc 0) ∧
    z.2=true ∧ z.1.1.vol.sDirt=false ∧ z.1.1.image≠z.1.2.super := by
  decide +kernel

end Ext2fsX.Mounted
