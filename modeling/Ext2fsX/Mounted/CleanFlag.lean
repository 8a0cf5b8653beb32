import Ext2fsX.Mounted.Lifecycle

namespace Ext2fsX.Mounted

open Framework
open Mount (Env isClean)

def Device.state (dev : Device) : UInt16 := dev.super.header.state

theorem valid_clear (x : UInt16) : valid (x &&& ~~~1)=false := by
  have hz : x &&& ~~~1 &&& 1=0 := by
    rw [UInt16.and_assoc,show ~~~(1 : UInt16) &&& 1=0 by decide,UInt16.and_zero]
  simp [valid,hz]

/-- The state word in core is that on disk, `EXT2_VALID_FS` is off while read-write, and
`s_wasvalid` says what the mount found. -/
structure Honest (m : Core) (dev : Device) : Prop where
  state : m.es.state=dev.state
  rw : m.rdOnly=false → valid dev.state=false
  was : m.wasValid=valid m.stateFound

section Parts

variable (l : Layout) (m : Core) (dev : Device)

theorem mountfs_honest (env : Env) (time : UInt32) (path : List UInt8) (junk : Bool)
    (r : Core × Device) (h : mountfs l env time path junk dev=some r) :
    Honest r.1 r.2 ∧ (valid r.2.state=true → valid dev.state=true) ∧
      (r.1.rdOnly=false → isClean dev.state=true ∨ env.force=true) := by
  unfold mountfs at h
  cases hf : Mount.mountfs env dev.super.header.toSuperblock with
  | error e => simp [hf] at h
  | ok fs =>
    simp only [hf,Option.some.injEq] at h
    subst h
    cases hr : env.ronly with
    | true =>
      exact ⟨⟨rfl,nofun,rfl⟩,id,nofun⟩
    | false =>
      have hoff : valid (dev.super.header.state &&& ~~~1)=false := valid_clear _
      have hforce : isClean dev.super.header.state=true ∨ env.force=true := by
        unfold Mount.mountfs at hf
        split at hf
        · cases hf
        split at hf
        · cases hf
        case isFalse hc => simpa [hr,or_iff_not_imp_left] using hc
      refine ⟨⟨rfl,fun _ => hoff,rfl⟩,fun hv => ?_,fun _ => hforce⟩
      change valid (dev.super.header.state &&& ~~~1)=true at hv
      rw [hoff] at hv
      cases hv

theorem downgrade_honest (h : Honest m dev) : Honest (downgrade l m dev).1 (downgrade l m dev).2 ∧
      (valid (downgrade l m dev).2.state=true → valid dev.state=true ∨ m.wasValid=true) := by
  unfold downgrade
  split
  case isTrue hw => exact ⟨⟨rfl,nofun,h.was⟩,fun _ => .inr hw⟩
  case isFalse hw => exact ⟨⟨h.state,nofun,h.was⟩,fun hv => .inl hv⟩

theorem upgrade_honest (h : Honest m dev) :
    Honest (upgrade l m dev).1 (upgrade l m dev).2 ∧ valid (upgrade l m dev).2.state=false :=
  ⟨⟨rfl,fun _ => valid_clear _,h.was⟩,valid_clear _⟩

theorem updateRest_honest (u : Update) (h : Honest m dev) :
    Honest (updateRest l u (m,dev)).1 (updateRest l u (m,dev)).2 ∧
      (valid (updateRest l u (m,dev)).2.state=true → valid dev.state=true) ∧
      (m.rdOnly=true → (updateRest l u (m,dev)).1.rdOnly=false →
        isClean dev.state=true ∨ u.force=true) := by
  have stay (hm : m.rdOnly=true) (hn : m.rdOnly=false) : isClean dev.state=true ∨ u.force=true := by
    rw [hm] at hn
    cases hn
  unfold updateRest
  split
  · exact ⟨h,id,stay⟩
  split
  · exact ⟨h,id,stay⟩
  split
  · split
    · exact ⟨h,id,stay⟩
    case isFalse hc =>
      obtain ⟨hu,hv⟩ := upgrade_honest l m dev h
      refine ⟨hu,fun ht => ?_,fun _ _ => ?_⟩
      · rw [hv] at ht
        cases ht
      · rw [← h.state]
        simpa [or_iff_not_imp_left] using hc
  · exact ⟨h,id,stay⟩

theorem update_honest (u : Update) (h : Honest m dev) :
    Honest (update l u m dev).1 (update l u m dev).2 ∧
      (valid (update l u m dev).2.state=true → valid dev.state=true ∨ m.wasValid=true) ∧
      (m.rdOnly=true → (update l u m dev).1.rdOnly=false →
        isClean dev.state=true ∨ u.force=true) := by
  unfold update
  split
  · refine ⟨h,.inl,fun hm hn => ?_⟩
    rw [hm] at hn
    cases hn
  split
  case isTrue hd =>
    obtain ⟨h1,h2⟩ := downgrade_honest l m dev h
    obtain ⟨h3,h4,-⟩ := updateRest_honest l _ _ u h1
    refine ⟨h3,fun hv => h2 (h4 hv),fun hm => ?_⟩
    simp [Update.downgrades,hm] at hd
  · obtain ⟨h3,h4,h5⟩ := updateRest_honest l m dev u h
    exact ⟨h3,fun hv => .inl (h4 hv),h5⟩

theorem unmount_valid (h : Honest m dev) (hv : valid (unmount l m dev).2.state=true) :
    valid dev.state=true ∨ m.wasValid=true := by
  unfold unmount at hv
  cases hr : m.rdOnly with
  | true =>
    simp only [hr,if_true] at hv
    exact .inl hv
  | false =>
    cases hw : m.wasValid with
    | true => exact .inr rfl
    | false =>
      simp only [hr,hw,Bool.false_eq_true,if_false] at hv
      change valid m.es.state=true at hv
      rw [h.state] at hv
      exact .inl hv

theorem sync_honest (s : System) (hs : s.dev=dev) (time : UInt32) (h : Honest m dev) :
    (s.sync l m time).dev.state=dev.state ∧ ∀ m',(s.sync l m time).mnt=some m' → s.mnt=some m' ∨
        (Honest m' (s.sync l m time).dev ∧ m'.rdOnly=m.rdOnly) := by
  subst hs
  unfold System.sync
  split
  · exact ⟨rfl,fun _ hm => .inl hm⟩
  split
  · refine ⟨h.state,fun m' hm => .inr ?_⟩
    cases hm
    refine ⟨⟨rfl,fun hn => ?_,h.was⟩,rfl⟩
    change valid m.es.state=false
    rw [h.state]
    exact h.rw hn
  · refine ⟨rfl,fun m' hm => .inr ?_⟩
    cases hm
    exact ⟨h,rfl⟩

end Parts

def Event.forced : Event → Bool
  | .mount env _ _ _ => env.force
  | .update u => u.force
  | _ => false

/-- Only as an update or unmount of a filesystem that was valid when mounted. -/
def TurnsOnHonestly (s : System) (x : Event) (s' : System) : Prop :=
  valid s.dev.state=false → valid s'.dev.state=true →
    ∃ m,s.mnt=some m ∧ valid m.stateFound=true ∧ ((∃ u,x=.update u) ∨ ∃ f,x=.unmount f)

/-- A step makes a filesystem read-write only if it is clean, or when forced. -/
def OpensHonestly (s : System) (x : Event) (s' : System) : Prop :=
  (∀ m,s.mnt=some m → m.rdOnly=true) → (∃ m',s'.mnt=some m' ∧ m'.rdOnly=false) →
    isClean s.dev.state=true ∨ x.forced=true

def HonestSystem (s : System) : Prop := ∀ m,s.mnt=some m → Honest m s.dev

theorem honest_quiet (s s' : System) (x : Event) (hd : s'.dev.state=s.dev.state)
    (hm : ∀ m',s'.mnt=some m' → ∃ m,s.mnt=some m ∧ m'.rdOnly=m.rdOnly) :
    TurnsOnHonestly s x s' ∧ OpensHonestly s x s' := by
  constructor
  · intro h1 h2
    rw [hd,h1] at h2
    cases h2
  · rintro hro ⟨m',hm',hrw⟩
    obtain ⟨m,hs,he⟩ := hm m' hm'
    rw [he,hro m hs] at hrw
    cases hrw

theorem step_honest (l : Layout) (s s' : System) (x : Event) (h : HonestSystem s)
    (hs : Step l s x s') : HonestSystem s' ∧ TurnsOnHonestly s x s' ∧ OpensHonestly s x s' := by
  cases hs with
  | mountFails env time path junk hm =>
    refine ⟨h,honest_quiet _ _ _ rfl ?_⟩
    intro m' hm'
    exact ⟨m',hm',rfl⟩
  | mount env time path junk r hm hr =>
    obtain ⟨h1,h2,h3⟩ := mountfs_honest l s.dev env time path junk r hr
    refine ⟨?_,fun hf ht => ?_,?_⟩
    · intro m' hm'
      cases hm'
      exact h1
    · have hv := h2 ht
      rw [hf] at hv
      cases hv
    · rintro - ⟨m',hm',hrw⟩
      cases hm'
      exact h3 hrw
  | update u m hm =>
    obtain ⟨h1,h2,h3⟩ := update_honest l m s.dev u (h m hm)
    refine ⟨?_,fun hf ht => ?_,?_⟩
    · intro m' hm'
      cases hm'
      exact h1
    · refine ⟨m,hm,?_,.inl ⟨u,rfl⟩⟩
      rw [← (h m hm).was]
      obtain hv | hw := h2 ht
      · rw [hf] at hv
        cases hv
      · exact hw
    · rintro hro ⟨m',hm',hrw⟩
      cases hm'
      exact h3 (hro m hm) hrw
  | call c m w hm hrw hw =>
    have hh := h m hm
    refine ⟨?_,honest_quiet _ _ _ rfl ?_⟩
    · intro m' hm'
      cases hm'
      exact ⟨hh.state,hh.rw,hh.was⟩
    · intro m' hm'
      cases hm'
      exact ⟨m,hm,rfl⟩
  | setLabel name m hm =>
    have hh := h m hm
    have hl : (setLabel m name).es.state=m.es.state ∧ (setLabel m name).rdOnly=m.rdOnly ∧
        (setLabel m name).wasValid=m.wasValid ∧ (setLabel m name).stateFound=m.stateFound := by
      unfold setLabel
      split
      · exact ⟨rfl,rfl,rfl,rfl⟩
      · exact ⟨rfl,rfl,rfl,rfl⟩
    refine ⟨?_,honest_quiet _ _ _ rfl ?_⟩
    · intro m' hm'
      cases hm'
      exact ⟨hl.1.trans hh.state,fun hn => hh.rw (hl.2.1 ▸ hn),by rw [hl.2.2.1,hl.2.2.2,hh.was]⟩
    · intro m' hm'
      cases hm'
      exact ⟨m,hm,hl.2.1⟩
  | sync time m hm =>
    obtain ⟨h1,h2⟩ := sync_honest l m s.dev s rfl time (h m hm)
    refine ⟨?_,honest_quiet _ _ _ h1 ?_⟩
    · intro m' hm'
      obtain ho | hn := h2 m' hm'
      · have hh := h m' ho
        exact ⟨hh.state.trans h1.symm,fun hr => h1 ▸ hh.rw hr,hh.was⟩
      · exact hn.1
    · intro m' hm'
      obtain ho | hn := h2 m' hm'
      · exact ⟨m',ho,rfl⟩
      · exact ⟨m,hm,hn.2⟩
  | flushFails m hm =>
    refine ⟨?_,honest_quiet _ _ _ rfl ?_⟩
    · intro m' hm'
      cases hm'
      exact h m hm
    · intro m' hm'
      cases hm'
      exact ⟨m,hm,rfl⟩
  | unmount m hm =>
    refine ⟨nofun,fun hf ht => ?_,?_⟩
    · refine ⟨m,hm,?_,.inr ⟨true,rfl⟩⟩
      rw [← (h m hm).was]
      obtain hv | hw := unmount_valid l m s.dev (h m hm) ht
      · rw [hf] at hv
        cases hv
      · exact hw
    · rintro - ⟨m',hm',-⟩
      cases hm'

theorem reach_honest (l : Layout) {s : System} (h : (mountMachine l).Reach Machine.anyStep s) : HonestSystem s := by
  refine Machine.Reach.invariant (I := HonestSystem) ?_ ?_ h
  · intro s hs m hm
    rw [hs.1] at hm
    cases hm
  · intro s s' x hs _ hn
    exact (step_honest l s s' x hs (step_of_next l s s' x hn).1).1

/-- In every run `EXT2_VALID_FS` is off on disk while the filesystem is read-write, it is turned on
only by an update or unmount of a filesystem that was valid when mounted, and one that is not clean
becomes read-write only when forced. -/
theorem clean_flag (l : Layout) (s : System) (h : (mountMachine l).Reach Machine.anyStep s) :
    (∀ m,s.mnt=some m → m.rdOnly=false → valid s.dev.state=false) ∧
      ∀ x s',s.next l x=some s' → TurnsOnHonestly s x s' ∧ OpensHonestly s x s' := by
  have hi := reach_honest l h
  refine ⟨fun m hm => (hi m hm).rw,fun x s' hn => ?_⟩
  exact (step_honest l s s' x hi (step_of_next l s s' x hn).1).2

def backAndForth : List Event :=
  [.mount Mount.smallMount 5 [47] false,.sync 6,.update toReadOnly,.update toReadWrite]

theorem clean_flag_backAndForth :
    ∃ s,(mountMachine smallLayout).exec backAndForth notMounted=some s ∧
      (∃ m,s.mnt=some m ∧ m.rdOnly=false) ∧ valid s.dev.state=false ∧
      ∃ s',s.next smallLayout (.unmount true)=some s' ∧ valid s'.dev.state=true ∧
        ∃ m,s.mnt=some m ∧ valid m.stateFound=true := by
  have he : (mountMachine smallLayout).exec backAndForth notMounted=some _ := rfl
  have hr := (Machine.Reach.start (⟨rfl,rfl,rfl⟩ : (mountMachine smallLayout).init notMounted)).exec
    (Machine.meets_anyStep _ _ _) he
  obtain ⟨h1,h2⟩ := clean_flag smallLayout _ hr
  have hoff := h1 _ rfl rfl
  obtain ⟨m,hm,hv,-⟩ := (h2 (.unmount true) _ rfl).1 hoff rfl
  exact ⟨_,he,⟨_,rfl,rfl⟩,hoff,_,rfl,rfl,m,hm,hv⟩

end Ext2fsX.Mounted
