import Ext2fsX.Mounted.Lifecycle

namespace Ext2fsX.Mounted

open Framework

/-- Superblock and descriptors on disk equal those in core. -/
structure Synced (l : Layout) (m : Core) (dev : Device) : Prop where
  super : m.image=dev.super
  desc : ∀ i<l.blocks.groupsCount,m.vol.desc i=dev.desc i

def Backed (l : Layout) (m : Core) (dev : Device) : Prop :=
  Covered l.descBlock l.blocks.groupsCount (fun i => m.vol.desc i≠dev.desc i) m.vol.descDirty

structure Kept (l : Layout) (m : Core) (dev : Device) : Prop where
  backed : Backed l m dev
  quiet : m.rdOnly=true → m.vol.sDirt=false
  been : m.rdOnly=false → m.beenRw=true
  synced : m.beenRw=true → m.vol.sDirt=false → Synced l m dev

theorem Synced.backed {l : Layout} {m : Core} {dev : Device} (h : Synced l m dev) :
    Backed l m dev := fun i hi hne => absurd (h.desc i hi) hne

variable (l : Layout)

theorem writeDescs_desc (m : Core) (dev : Device) (h : Backed l m dev) (i : ℕ)
    (hi : i<l.blocks.groupsCount) : m.vol.desc i=(m.vol.writeDescs l dev.desc).2 i := by
  have hw : writeBack l.descBlock m.vol.desc m.vol.descDirty l.dbpg dev.desc i=m.vol.desc i := by
    apply h.writeBack_all _ l.dbpg l.descBlock_lt i hi
    intro i _ hn
    exact (not_not.mp hn).symm
  exact hw.symm

theorem sbupdate_synced (m : Core) (dev : Device) (h : Backed l m dev) :
    Synced l (m.sbupdate l dev).1 (m.sbupdate l dev).2 :=
  ⟨rfl,writeDescs_desc l m dev h⟩

section Parts

variable (l : Layout) (m : Core) (dev : Device)

theorem mountfs_kept (env : Mount.Env) (time : UInt32) (path : List UInt8) (junk : Bool)
    (hj : env.ronly=true → junk=false) (r : Core × Device)
    (h : mountfs l env time path junk dev=some r) : Kept l r.1 r.2 := by
  unfold mountfs at h
  cases hf : Mount.mountfs env dev.super.header.toSuperblock with
  | error e => simp [hf] at h
  | ok fs =>
    simp only [hf,Option.some.injEq] at h
    subst h
    have hb : Backed l (mountCore dev env.ronly time path junk fs.dircount) dev :=
      fun i _ hne => absurd rfl hne
    have hs := sbupdate_synced l _ dev hb
    cases hr : env.ronly with
    | true =>
      have hz : junk=false := hj hr
      exact ⟨hb,fun _ => hz,nofun,nofun⟩
    | false =>
      rw [hr] at hs
      exact ⟨hs.backed,nofun,fun _ => rfl,fun _ _ => hs⟩

theorem setState_synced (state : UInt16) (h : Backed l m dev) :
    Synced l ((m.setState state).sbupdate l dev).1 ((m.setState state).sbupdate l dev).2 :=
  sbupdate_synced l (m.setState state) dev h

theorem downgrade_kept (h : Kept l m dev) (hrw : m.rdOnly=false) (hd : m.vol.sDirt=false) :
    Kept l (downgrade l m dev).1 (downgrade l m dev).2 := by
  have hbeen := h.been hrw
  unfold downgrade
  split
  · have hs := setState_synced l m dev (m.es.state ||| 1) h.backed
    exact ⟨hs.backed,fun _ => hd,nofun,fun _ _ => ⟨hs.super,hs.desc⟩⟩
  · have hs := h.synced hbeen hd
    exact ⟨hs.backed,fun _ => hd,nofun,fun _ _ => ⟨hs.super,hs.desc⟩⟩

theorem upgrade_kept (h : Kept l m dev) : Kept l (upgrade l m dev).1 (upgrade l m dev).2 := by
  have hs := setState_synced l m dev (m.es.state &&& ~~~1) h.backed
  exact ⟨hs.backed,nofun,fun _ => rfl,fun _ _ => ⟨hs.super,hs.desc⟩⟩

theorem updateRest_kept (u : Update) (h : Kept l m dev) :
    Kept l (updateRest l u (m,dev)).1 (updateRest l u (m,dev)).2 := by
  unfold updateRest
  split
  · exact h
  split
  · exact h
  split
  · split
    · exact h
    · exact upgrade_kept l m dev h
  · exact h

theorem update_kept (u : Update) (h : Kept l m dev)
    (hok : u.downgrades m=true → m.vol.sDirt=false) :
    Kept l (update l u m dev).1 (update l u m dev).2 := by
  unfold update
  split
  · exact h
  split
  case isTrue hd =>
    have hrw : m.rdOnly=false := by
      simp only [Update.downgrades,Bool.and_eq_true,Bool.not_eq_true'] at hd
      exact hd.1.1.1
    exact updateRest_kept l _ _ u (downgrade_kept l m dev h hrw (hok hd))
  · exact updateRest_kept l m dev u h

theorem call_kept (c : Call) (w : Volume) (h : Kept l m dev) (hrw : m.rdOnly=false)
    (hok : CallOk l m.vol c) (hw : m.vol.call l c=some w) :
    Kept l { m with vol := w } dev := by
  have hm := call_marking l m.vol w c hok hw
  refine ⟨?_,?_,h.been,?_⟩
  · apply h.backed.step hm.keep
    intro i hi hne
    by_cases hsame : w.desc i=m.vol.desc i
    · exact .inl (hsame ▸ hne)
    · exact .inr (hm.cover i hi hsame)
  · intro hro
    rw [hrw] at hro
    cases hro
  · intro hbeen hclean
    obtain ⟨h1,h2,h3,h4⟩ := hm.clean hclean
    have hs := h.synced hbeen h1
    refine ⟨?_,fun i hi => ?_⟩
    · rw [← hs.super]
      simp only [Core.image,h3,h4]
    · exact (congrFun h2 i).trans (hs.desc i hi)

theorem setLabel_kept (name : List UInt8) (h : Kept l m dev) (hrw : m.rdOnly=false) :
    Kept l (setLabel m name) dev := by
  unfold setLabel
  split
  · refine ⟨h.backed,fun hro => ?_,h.been,nofun⟩
    rw [hrw] at hro
    cases hro
  · exact h

/-- `ext2_sync` of a filesystem that keeps the rules does not panic. -/
theorem sync_kept (s : System) (hs : s.dev=dev) (time : UInt32) (h : Kept l m dev)
    (hp : s.panicked=false) :
    (s.sync l m time).panicked=false ∧ (s.sync l m time).freed=none ∧
      ∀ m',(s.sync l m time).mnt=some m' → Kept l m' (s.sync l m time).dev := by
  subst hs
  unfold System.sync
  split
  case isTrue hb =>
    simp only [Bool.and_eq_true] at hb
    have hq := h.quiet hb.2
    rw [hb.1] at hq
    cases hq
  case isFalse hb =>
    split
    case isTrue hd =>
      refine ⟨hp,rfl,fun m' hm => ?_⟩
      cases hm
      have hsync := sbupdate_synced l ({ m with
        es := { m.es with wtime := time }
        vol := { m.vol with sDirt := false } } : Core) s.dev h.backed
      exact ⟨hsync.backed,fun _ => rfl,h.been,fun _ _ => hsync⟩
    · refine ⟨hp,rfl,fun m' hm => ?_⟩
      cases hm
      exact h

theorem unmount_synced (h : Kept l m dev) (hok : m.rdOnly=true → m.beenRw=true) :
    Synced l (unmount l m dev).1 (unmount l m dev).2 := by
  unfold unmount
  split
  case isTrue hro =>
    have hs := h.synced (hok hro) (h.quiet hro)
    exact ⟨hs.super,writeDescs_desc l m dev hs.backed⟩
  · have hs : ∀ state : UInt16,_ := fun state => setState_synced l m dev state h.backed
    split
    · exact ⟨rfl,writeDescs_desc l _ _ (hs (m.es.state ||| 1)).backed⟩
    · exact ⟨rfl,writeDescs_desc l _ _ (sbupdate_synced l m dev h.backed).backed⟩

end Parts

def EventOk (l : Layout) (s : System) : Event → Prop
  | .mount env _ _ junk => env.ronly=true → junk=false
  | .update u => ∀ m,s.mnt=some m → u.downgrades m=true → m.vol.sDirt=false
  | .call c => ∀ m,s.mnt=some m → CallOk l m.vol c
  | .setLabel _ => ∀ m,s.mnt=some m → m.rdOnly=false
  | .sync _ => True
  | .unmount flushed => flushed=true → ∀ m,s.mnt=some m → m.rdOnly=true → m.beenRw=true

/-- No panic, nothing dirty while read-only, and after a transition to read-only or an unmount
superblock and descriptors are on disk. -/
structure Orderly (l : Layout) (s : System) : Prop where
  noPanic : s.panicked=false
  quiet : ∀ m,s.mnt=some m → ¬(m.rdOnly=true ∧ m.vol.sDirt=true)
  readOnly : ∀ m,s.mnt=some m → m.rdOnly=true → m.beenRw=true → Synced l m s.dev
  unmounted : ∀ m,s.freed=some m → Synced l m s.dev

structure KeptSystem (l : Layout) (s : System) : Prop where
  noPanic : s.panicked=false
  mounted : ∀ m,s.mnt=some m → Kept l m s.dev
  freed : ∀ m,s.freed=some m → Synced l m s.dev

theorem KeptSystem.put {l : Layout} {s : System} (h : KeptSystem l s) (r : Core × Device)
    (hr : Kept l r.1 r.2) : KeptSystem l (s.put r) := by
  refine ⟨h.noPanic,fun m hm => ?_,nofun⟩
  cases hm
  exact hr

theorem step_kept (l : Layout) (s s' : System) (x : Event) (h : KeptSystem l s)
    (hok : EventOk l s x) (hs : Step l s x s') : KeptSystem l s' := by
  cases hs with
  | mountFails env time path junk hm => exact ⟨h.noPanic,h.mounted,nofun⟩
  | mount env time path junk r hm hr =>
    exact h.put r (mountfs_kept l s.dev env time path junk hok r hr)
  | update u m hm => exact h.put _ (update_kept l m s.dev u (h.mounted m hm) (hok m hm))
  | call c m w hm hrw hw =>
    exact h.put _ (call_kept l m s.dev c w (h.mounted m hm) hrw (hok m hm) hw)
  | setLabel name m hm => exact h.put _ (setLabel_kept l m s.dev name (h.mounted m hm) (hok m hm))
  | sync time m hm =>
    obtain ⟨h1,h2,h3⟩ := sync_kept l m s.dev s rfl time (h.mounted m hm) h.noPanic
    exact ⟨h1,h3,fun m' hm' => by rw [h2] at hm'; cases hm'⟩
  | flushFails m hm => exact h.put _ (h.mounted m hm)
  | unmount m hm =>
    refine ⟨h.noPanic,nofun,fun m' hm' => ?_⟩
    cases hm'
    exact unmount_synced l m s.dev (h.mounted m hm) (hok rfl m hm)

theorem reach_kept (l : Layout) {s : System} (h : (mountMachine l).Reach (EventOk l) s) :
    KeptSystem l s := by
  refine Machine.Reach.invariant (I := KeptSystem l) ?_ ?_ h
  · intro s hs
    refine ⟨hs.2.1,fun m hm => ?_,fun m hm => ?_⟩
    · rw [hs.1] at hm
      cases hm
    · rw [hs.2.2] at hm
      cases hm
  · intro s s' x hs hok hn
    exact step_kept l s s' x hs hok (step_of_next l s s' x hn).1

/-- In every run whose calls meet the condition the mount keeps its rules. -/
theorem orderly_runs (l : Layout) (s : System) (h : (mountMachine l).Reach (EventOk l) s) :
    Orderly l s := by
  have hk := reach_kept l h
  refine ⟨hk.noPanic,?_,?_,hk.freed⟩
  · rintro m hm ⟨hro,hd⟩
    rw [(hk.mounted m hm).quiet hro] at hd
    cases hd
  · intro m hm hro hbeen
    exact (hk.mounted m hm).synced hbeen ((hk.mounted m hm).quiet hro)

def syncedFirst : List Event :=
  [.mount Mount.smallMount 5 [47] true,.call (.newInode 0 false),.sync 6,.update toReadOnly,
    .unmount true]

theorem syncedFirst_meets :
    (mountMachine smallLayout).Meets (EventOk smallLayout) syncedFirst notMounted := by
  refine ⟨nofun,fun s1 h1 => ?_⟩
  cases h1
  refine ⟨fun m hm => ?_,fun s2 h2 => ?_⟩
  · cases hm
    exact nofun
  cases h2
  refine ⟨trivial,fun s3 h3 => ?_⟩
  cases h3
  refine ⟨fun m hm _ => ?_,fun s4 h4 => ?_⟩
  · cases hm
    rfl
  cases h4
  refine ⟨fun _ m hm _ => ?_,fun _ _ => trivial⟩
  cases hm
  rfl

theorem orderly_runs_syncedFirst :
    ∃ s m,(mountMachine smallLayout).exec syncedFirst notMounted=some s ∧ s.freed=some m ∧
      m.image.freeInodes=1012 ∧ Synced smallLayout m s.dev := by
  have he : (mountMachine smallLayout).exec syncedFirst notMounted=some _ := rfl
  have hr := (Machine.Reach.start (⟨rfl,rfl,rfl⟩ : (mountMachine smallLayout).init notMounted)).exec
    syncedFirst_meets he
  exact ⟨_,_,he,rfl,rfl,(orderly_runs smallLayout _ hr).unmounted _ rfl⟩

/-- `s_dirt` is set by the mount; made read-only before the first sync it stays set, and that sync
panics. -/
theorem sync_panics :
    ∃ s m s',(mountMachine smallLayout).exec
        [.mount Mount.smallMount 5 [47] false,.update toReadOnly] notMounted=some s ∧
      s.mnt=some m ∧ m.rdOnly=true ∧ m.vol.sDirt=true ∧
      s.next smallLayout (.sync 6)=some s' ∧ s'.panicked=true :=
  ⟨_,_,_,rfl,rfl,rfl,rfl,rfl,rfl⟩

end Ext2fsX.Mounted
