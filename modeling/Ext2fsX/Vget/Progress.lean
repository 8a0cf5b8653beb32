import Ext2fsX.Framework.LockWord
import Ext2fsX.Vget.Uniqueness

namespace Ext2fsX.Vget

open Framework
open Function (update update_self update_of_ne)

variable {τ : Type} [DecidableEq τ]

def Pc.lockRole : Pc → LockRole
  | lockSleep => .asleep
  | malloc | insert _ | wakeTest _ => .holder
  | wake _ => .waking
  | dropArg _ | dropCas _ _ => .dropping
  | _ => .out

theorem Pc.lockRole_eq_asleep (p : Pc) : p.lockRole=.asleep ↔ p=.lockSleep := by
  cases p <;> simp [lockRole]

inductive Maker where
  | none
  | locked (ip : ℕ)
  | unlocked (ip : ℕ)

def Maker.inode : Maker → Option ℕ
  | none => Option.none
  | locked ip | unlocked ip => some ip

def Pc.maker : Pc → Maker
  | insert ip | wakeTest ip | wake ip | dropArg ip | dropCas ip _ | bread ip | vinit ip
  | irelse ip | irelLoop ip => .locked ip
  | vnodeCreate ip | relock ip _ | irelFree ip => .unlocked ip
  | _ => .none

variable (s : State τ)

/-- Nobody sleeps on an inode or reclaims one, and a call knows inodes that exist, its own being
neither initialised nor freed. -/
def Pc.Fits : Pc → Prop
  | initSleep _ | initWoken _ | irelWake _ | irelRelock _ | irelSleep _ | reclaim _
  | reclaimUpdate _ | reclaimRelock _ | reclaimRemove _ | reclaimLoop _ | reclaimSleep _
  | reclaimFree _ => False
  | ixlock ip | getwithvid ip => ip < s.fresh
  | insert ip | wakeTest ip | wake ip | dropArg ip | dropCas ip _ | bread ip | vinit ip
  | irelse ip | irelLoop ip | vnodeCreate ip | relock ip _ | irelFree ip =>
    ip < s.fresh ∧ (s.inode ip).freed=false ∧ (s.inode ip).init=true
  | _ => True

namespace Inode

/-- An inode nobody sleeps on, as its creator and the other calls find it. -/
def Calm (i : Inode τ) : Prop :=
  i.initWait=false ∧ i.refct=0 ∧ i.dead=false ∧ (i.freed=true → i.init=true)

def progress (i : Inode τ) : Bool × Bool × Bool × Bool × ℕ × Option τ :=
  (i.init,i.freed,i.initWait,i.dead,i.refct,i.owner)

end Inode

def State.lockRoles (t : τ) : LockRole := (s.pc t).lockRole

/-- The invariant of the runs in which no wakeup is lost. -/
structure Steady : Prop where
  fault : s.fault=false
  lock : LockWord s.hashLock s.lockRoles
  below : ∀ ip∈s.chain,ip < s.fresh
  fits : ∀ t,(s.pc t).Fits s
  calm : ∀ ip < s.fresh,(s.inode ip).Calm
  owner : ∀ ip < s.fresh,∀ t,(s.inode ip).owner=some t → (s.pc t).maker=.locked ip
  one : ∀ t u ip,(s.pc t).maker.inode=some ip → (s.pc u).maker.inode=some ip → t=u

/-- No wakeup is lost at the next step: an inode found is initialised when it is locked, the hash
lock is only taken when it is 0, only marked when it is held, released with the value it has, and
only slept on while a thread is still going to wake the sleepers. -/
def Pc.Safe : Pc → Prop
  | ixlock ip | initWoken ip => (s.inode ip).init=false
  | takeCas v => s.hashLock=v → v=0
  | markCas v => s.hashLock=v → v≠0
  | dropCas _ v => s.hashLock=v
  | lockMsleep => ∃ u,(s.pc u).lockRole.Wakes s.hashLock
  | _ => True

instance [Fintype τ] (s : State τ) : DecidablePred (Pc.Safe s) := fun p => by
  cases p <;> unfold Pc.Safe <;> infer_instance

def NoLostWakeup (x : Act τ) : Prop := (s.pc x.thread).Safe s

instance [Fintype τ] (s : State τ) (x : Act τ) : Decidable (NoLostWakeup s x) :=
  inferInstanceAs (Decidable ((s.pc x.thread).Safe s))

omit [DecidableEq τ] in
theorem Pc.Fits.maker {s : State τ} {p : Pc} {ip : ℕ} (h : p.Fits s) (hp : p.maker.inode=some ip) :
    ip < s.fresh ∧ (s.inode ip).freed=false ∧ (s.inode ip).init=true := by
  cases p <;> simp_all [Fits,Pc.maker,Maker.inode]

omit [DecidableEq τ] in
theorem Pc.Fits.mono {s s' : State τ} {p : Pc} (h : p.Fits s) (hn : s.fresh ≤ s'.fresh)
    (hi : ∀ ip,p.maker.inode=some ip →
      (s'.inode ip).freed=(s.inode ip).freed ∧ (s'.inode ip).init=(s.inode ip).init) :
    p.Fits s' := by
  cases p with
  | ixlock ip | getwithvid ip => exact Nat.lt_of_lt_of_le h hn
  | _ =>
    first
    | exact h
    | exact ⟨Nat.lt_of_lt_of_le h.1 hn,(hi _ rfl).1.trans h.2.1,(hi _ rfl).2.trans h.2.2⟩

theorem State.lockRoles_of_pc {s s' : State τ} {t : τ} {p : Pc} (h : s'.pc=update s.pc t p) :
    s'.lockRoles=update s.lockRoles t p.lockRole := by
  funext u
  simp only [lockRoles,h,Function.update_apply]
  split <;> rfl

namespace Steady

variable {s s' : State τ}

/-- A step of thread `t`; the inodes it changes are its own. -/
theorem change (h : Steady s) (t : τ) (p : Pc) (hf : s'.fault=s.fault)
    (hpc : s'.pc=update s.pc t p) (hb : ∀ ip∈s'.chain,ip < s'.fresh)
    (hn : s.fresh ≤ s'.fresh) (hp : p.Fits s')
    (hm : ∀ ip,p.maker.inode=some ip → ∀ u,u≠t → (s.pc u).maker.inode≠some ip)
    (hi : ∀ ip < s'.fresh,(ip < s.fresh ∧ (s'.inode ip).progress=(s.inode ip).progress ∧
        ((s.pc t).maker=.locked ip → p.maker=.locked ip)) ∨
      ((s'.inode ip).Calm ∧ (∀ u,(s'.inode ip).owner=some u → u=t ∧ p.maker=.locked ip) ∧
        ∀ u,u≠t → (s.pc u).maker.inode≠some ip))
    (hl : LockWord s'.hashLock (update s.lockRoles t p.lockRole)) : Steady s' := by
  have self : s'.pc t=p := by rw [hpc,update_self]
  have other (u : τ) (hu : u≠t) : s'.pc u=s.pc u := by rw [hpc,update_of_ne hu]
  refine ⟨hf.trans h.fault,State.lockRoles_of_pc hpc ▸ hl,hb,fun u => ?_,fun ip hip => ?_,
    fun ip hip u ho => ?_,fun u v ip hu hv => ?_⟩
  · by_cases he : u=t
    · rw [he,self]
      exact hp
    rw [other u he]
    refine (h.fits u).mono hn (fun ip hu => ?_)
    rcases hi ip (Nat.lt_of_lt_of_le ((h.fits u).maker hu).1 hn) with ⟨-,hs,-⟩ | ⟨-,-,hno⟩
    · simp only [Inode.progress,Prod.mk.injEq] at hs
      exact ⟨hs.2.1,hs.1⟩
    · exact absurd hu (hno u he)
  · rcases hi ip hip with ⟨hlt,hs,-⟩ | ⟨hc,-⟩
    · have := h.calm ip hlt
      simp_all [Inode.progress,Inode.Calm]
    · exact hc
  · rcases hi ip hip with ⟨hlt,hs,hk⟩ | ⟨-,hown,-⟩
    · have hu := h.owner ip hlt u (by simp_all [Inode.progress])
      by_cases he : u=t
      · rw [he,self]
        exact hk (he ▸ hu)
      · rw [other u he]
        exact hu
    · obtain ⟨rfl,hk⟩ := hown u ho
      rw [self]
      exact hk
  · by_cases he : u=t <;> by_cases hg : v=t
    · exact he.trans hg.symm
    · rw [he,self] at hu
      rw [other v hg] at hv
      exact absurd hv (hm ip hu v hg)
    · rw [hg,self] at hv
      rw [other u he] at hu
      exact absurd hu (hm ip hv u he)
    · rw [other u he] at hu
      rw [other v hg] at hv
      exact h.one u v ip hu hv

section

variable (h : Steady s) (t : τ)

include h

omit [DecidableEq τ] in
theorem alone {ip : ℕ} (ht : (s.pc t).maker.inode=some ip) (u : τ) (hu : u≠t) :
    (s.pc u).maker.inode≠some ip := fun hm => hu (h.one u t ip hm ht)

variable (p : Pc)

theorem keep (hf : s'.fault=s.fault) (hpc : s'.pc=update s.pc t p)
    (hb : ∀ ip∈s'.chain,ip < s.fresh) (hn : s'.fresh=s.fresh)
    (hi : ∀ ip,(s'.inode ip).progress=(s.inode ip).progress) (hp : p.Fits s)
    (hm : p.maker=(s.pc t).maker)
    (hl : LockWord s'.hashLock (update s.lockRoles t p.lockRole)) : Steady s' := by
  have hfield (ip : ℕ) : (s'.inode ip).freed=(s.inode ip).freed ∧
      (s'.inode ip).init=(s.inode ip).init := by
    have := hi ip
    simp_all [Inode.progress]
  refine h.change t p hf hpc (hn ▸ hb) hn.ge (hp.mono hn.ge (fun ip _ => hfield ip)) ?_ ?_ hl
  · rw [hm]
    exact fun ip ht => h.alone t ht
  · exact fun ip hip => .inl ⟨hn ▸ hip,hi ip,fun he => hm.trans he⟩

theorem lock_same (hp : p.lockRole=s.lockRoles t) :
    LockWord s.hashLock (update s.lockRoles t p.lockRole) := by
  rw [hp,Function.update_eq_self]
  exact h.lock

theorem goto (hp : p.Fits s) (hm : p.maker=(s.pc t).maker)
    (hl : LockWord s.hashLock (update s.lockRoles t p.lockRole)) :
    Steady (s.goto t p) :=
  h.keep t p rfl rfl h.below rfl (fun _ => rfl) hp hm hl

variable (ip : ℕ)

variable (i : Inode τ)

theorem set (p : Pc) (hi : i.progress=(s.inode ip).progress) (hp : p.Fits s)
    (hm : p.maker=(s.pc t).maker) (hl : p.lockRole=s.lockRoles t) :
    Steady ((s.setInode ip i).goto t p) := by
  refine h.keep t p rfl rfl h.below rfl ?_ hp hm (h.lock_same t p hl)
  exact (Function.forall_update_iff s.inode (fun jp j => j.progress=(s.inode jp).progress)).mpr
    ⟨hi,fun _ _ => rfl⟩

theorem swap (v w : ℤ) (hp : p.Fits s) (hm : p.maker=(s.pc t).maker)
    (hl : LockWord (s.compareAndSwap v w).hashLock (update s.lockRoles t p.lockRole)) :
    Steady ((s.compareAndSwap v w).goto t p) := by
  refine h.keep t p ?_ ?_ ?_ ?_ ?_ hp hm hl
  · simp
  · simp [State.goto]
  · simpa using h.below
  · simp
  · simp

theorem create (p : Pc) (ht : (s.pc t).maker.inode=some ip)
    (hp : p.Fits ((s.setInode ip i).goto t p)) (hm : ∀ jp,p.maker.inode=some jp → jp=ip)
    (hl : p.lockRole=s.lockRoles t) (hc : i.Calm)
    (ho : ∀ u,i.owner=some u → u=t ∧ p.maker=.locked ip) :
    Steady ((s.setInode ip i).goto t p) := by
  refine h.change t p rfl rfl h.below le_rfl hp ?_ ?_ (h.lock_same t p hl)
  · intro jp hj
    rw [hm jp hj]
    exact h.alone t ht
  intro jp hjp
  by_cases he : jp=ip
  · subst he
    rw [State.goto_inode,State.setInode_self]
    exact .inr ⟨hc,ho,h.alone t ht⟩
  · rw [State.goto_inode,State.setInode_of_ne _ _ _ _ he]
    refine .inl ⟨hjp,rfl,fun hk => absurd ?_ he⟩
    rw [hk] at ht
    exact Option.some.inj ht

theorem setOwner (o : Option τ) (p : Pc) (ht : (s.pc t).maker.inode=some ip)
    (hp : p.Fits ((s.setInode ip { s.inode ip with owner := o }).goto t p))
    (hl : p.lockRole=s.lockRoles t)
    (ho : (o=none ∧ p.maker=.unlocked ip) ∨ (o=some t ∧ p.maker=.locked ip)) :
    Steady ((s.setInode ip { s.inode ip with owner := o }).goto t p) := by
  have hm : p.maker.inode=some ip := by
    rcases ho with ⟨-,hm⟩ | ⟨-,hm⟩ <;> rw [hm] <;> rfl
  refine h.create t ip _ p ht hp ?_ hl (h.calm ip ((h.fits t).maker ht).1) ?_
  · exact fun jp hj => (Option.some.inj (hm.symm.trans hj)).symm
  · intro u hu
    rcases ho with ⟨rfl,-⟩ | ⟨rfl,hm⟩
    · cases hu
    · exact ⟨(Option.some.inj hu).symm,hm⟩

theorem malloc (ht : s.pc t=.malloc) (hinit : i.init=true)
    (hc : i.Calm) (hf : i.freed=false) (ho : i.owner=some t) :
    Steady ({ s.setInode s.fresh i with fresh := s.fresh+1 }.goto t (.insert s.fresh)) := by
  have new (u : τ) : (s.pc u).maker.inode≠some s.fresh :=
    fun hu => absurd ((h.fits u).maker hu).1 (lt_irrefl _)
  refine h.change t _ rfl rfl (fun ip hip => Nat.lt_succ_of_lt (h.below ip hip)) (Nat.le_succ _) ?_
    ?_ ?_ (h.lock_same t (.insert s.fresh) (by rw [State.lockRoles,ht]; rfl))
  · simp [Pc.Fits,hf,hinit]
  · rintro ip ⟨⟩ u -
    exact new u
  intro ip hip
  by_cases he : ip=s.fresh
  · subst he
    refine .inr ⟨by simpa using hc,fun u hu => ?_,fun u _ => new u⟩
    exact ⟨by simpa [ho] using hu.symm,rfl⟩
  · refine .inl ⟨lt_of_le_of_ne (Nat.lt_succ_iff.mp hip) he,by simp [he],?_⟩
    rw [ht]
    nofun

theorem insert (ht : s.pc t=.insert ip) :
    Steady ({ s.setInode ip { s.inode ip with hashed := true } with
      chain := ip::s.chain }.goto t (.wakeTest ip)) := by
  have hfit := h.fits t
  rw [ht] at hfit
  have hs := h.set t ip { s.inode ip with hashed := true } (.wakeTest ip) rfl hfit (by rw [ht]; rfl)
    (by rw [State.lockRoles,ht]; rfl)
  exact ⟨hs.fault,hs.lock,List.forall_mem_cons.mpr ⟨hfit.1,h.below⟩,hs.fits,hs.calm,hs.owner,hs.one⟩

end

section

variable (h : Steady s)

include h

omit [DecidableEq τ] in
theorem wakeup_pc (t : τ) : (s.wakeup .hashLock).pc t=
    if s.pc t=.lockSleep then .lockWhile else s.pc t := by
  have := h.fits t
  simp only [State.wakeup]
  cases hp : s.pc t <;> simp_all [Pc.chan,Pc.woken,Pc.Fits]

omit [DecidableEq τ] in
theorem wakeup : Steady (s.wakeup .hashLock) ∧ ∀ t,(s.wakeup .hashLock).lockRoles t≠.asleep := by
  have hrole (t : τ) : (s.wakeup .hashLock).lockRoles t=
      if s.lockRoles t=.asleep then .out else s.lockRoles t := by
    simp only [State.lockRoles,h.wakeup_pc t,Pc.lockRole_eq_asleep]
    split <;> rfl
  have hmk (t : τ) : ((s.wakeup .hashLock).pc t).maker=(s.pc t).maker := by
    rw [h.wakeup_pc t]
    split
    · rename_i hp
      rw [hp]
      rfl
    · rfl
  refine ⟨⟨h.fault,h.lock.wake _ hrole,h.below,fun t => ?_,h.calm,?_,?_⟩,fun t ht => ?_⟩
  · rw [h.wakeup_pc t]
    split
    · trivial
    · exact h.fits t
  · simpa [hmk] using h.owner
  · simpa only [hmk] using h.one
  · rw [hrole t] at ht
    split at ht
    · cases ht
    · exact absurd ht (by assumption)

theorem step {t : τ} {p : Pc} (hp : s.pc t=p) (hs : p.Safe s)
    (hst : s.Step t p s') : Steady s' := by
  have hfit : p.Fits s := hp ▸ h.fits t
  have hm : p.maker=(s.pc t).maker := congrArg Pc.maker hp.symm
  have hl : p.lockRole=s.lockRoles t := congrArg Pc.lockRole hp.symm
  have stay (q : Pc) (hq : q.Fits s) (hqm : q.maker=p.maker) (hql : q.lockRole=p.lockRole) :
      Steady (s.goto t q) :=
    h.goto t q hq (hqm.trans hm) (h.lock_same t q (hql.trans hl))
  have calm {ip : ℕ} (hip : p.maker.inode=some ip) := h.calm ip (hfit.maker hip).1
  cases hst with
  | move hmove =>
    cases hmove with
    | lazymod | updated => exact hfit.elim
    | dropArg | bread | breadFailed | vinitFailed | createFailed => exact stay _ hfit rfl rfl
    | _ => exact stay _ trivial rfl rfl
  | @pick ip l hc => exact stay _ (h.below ip (by simp [hc])) rfl rfl
  | @ixlock ip =>
    rw [State.hashGetLocked,if_neg (by simp [show (s.inode ip).init=false from hs])]
    split
    · exact h.set t ip _ _ rfl hfit hm hl
    · exact h.set t ip _ _ rfl trivial hm hl
  | getwithvid => exact h.set t _ _ _ rfl trivial hm hl
  | @markCas v =>
    refine h.swap t _ v (-1) trivial hm ?_
    rw [show Pc.lockMsleep.lockRole=s.lockRoles t from hl,Function.update_eq_self]
    unfold State.compareAndSwap
    split
    case isTrue hv => exact h.lock.mark (hv ▸ hs hv)
    · exact h.lock
  | lockMsleep => exact h.goto t _ trivial hm (h.lock.sleep t hl.symm hs)
  | @takeCas v =>
    have hlock := h.lock
    split
    case isTrue hv =>
      refine h.swap t _ v 1 trivial hm ?_
      rw [hv,hs hv] at hlock
      rw [State.compareAndSwap,if_pos hv]
      exact hlock.win t
    case isFalse hv =>
      refine h.swap t _ v 1 trivial hm ?_
      rw [State.compareAndSwap,if_neg hv]
      exact h.lock_same t .hashGet hl
  | malloc => exact h.malloc t _ hp rfl ⟨rfl,rfl,rfl,by simp⟩ rfl rfl
  | insert => exact h.insert t _ hp
  | wakeTest =>
    have hold : (s.lockRoles t).Holds := by rw [← hl]; trivial
    split
    · exact h.goto t _ hfit hm (h.lock.advance t _ hold trivial (fun _ _ _ => trivial))
    case isFalse hneg =>
      refine h.goto t _ hfit hm (h.lock.advance t _ hold trivial ?_)
      intro u _ hw
      rw [← hl] at hw
      exact absurd hw hneg
  | @wake ip =>
    obtain ⟨hwake,hnone⟩ := h.wakeup
    have hpc : (s.wakeup .hashLock).pc t=.wake ip := by
      simp [State.wakeup,hp,Pc.chan]
    refine hwake.goto t _ hfit (by rw [hpc]; rfl) (hwake.lock.advance t _ ?_ trivial ?_)
    · rw [State.lockRoles,hpc]
      trivial
    · exact fun u hu => absurd hu (hnone u)
  | @dropCas ip v =>
    have hv : s.hashLock=v := hs
    refine h.swap t _ v 0 hfit hm ?_
    rw [State.compareAndSwap,if_pos hv]
    exact h.lock.release t hl.symm
  | vinit | irelLast =>
    exact h.setOwner t _ none _ (hm ▸ rfl) (by simpa [Pc.Fits] using hfit) hl (.inl ⟨rfl,rfl⟩)
  | vnodeCreate => exact h.set t _ _ _ rfl hfit hm hl
  | @finish ip ho =>
    have hc := calm rfl
    rw [State.vgetFinish,if_neg (by simp [hc.1])]
    refine h.create t ip _ _ (hm ▸ rfl) trivial (by simp [Pc.maker,Maker.inode]) hl ⟨rfl,hc.2.1,hc.2.2.1,?_⟩ ?_
    · exact fun hf => absurd (hfit.2.1.symm.trans hf) Bool.false_ne_true
    · exact fun u hu => absurd (ho.symm.trans hu) (by simp)
  | relock =>
    exact h.setOwner t _ (some t) _ (hm ▸ rfl) (by simpa [Pc.Fits] using hfit) hl (.inr ⟨rfl,rfl⟩)
  | @irelse ip =>
    unfold State.hashRemove
    split
    · have hset := h.set t ip { s.inode ip with hashed := false } (.irelLoop ip) rfl hfit hm hl
      exact ⟨hset.fault,hset.lock,fun jp hj => h.below jp (List.mem_of_mem_erase hj),hset.fits,
        hset.calm,hset.owner,hset.one⟩
    · exact stay _ hfit rfl rfl
  | @irelNotify ip hw => exact absurd ((calm rfl).1.symm.trans hw) Bool.false_ne_true
  | @irelLoop ip hc =>
    rw [(calm rfl).2.1] at hc
    exact absurd hc (lt_irrefl 0)
  | @irelFree ip =>
    have hc := calm rfl
    refine h.create t ip _ _ (hm ▸ rfl) trivial (by simp [Pc.maker,Maker.inode]) hl ⟨hc.1,hc.2.1,hc.2.2.1,fun _ => hfit.2.2⟩ ?_
    intro u hu
    have hlock := h.owner ip hfit.1 u hu
    have hut := h.one u t ip (by rw [hlock]; rfl) (hm ▸ rfl)
    rw [hut,← hm] at hlock
    cases hlock
  | initWoken | irelWake | irelRelock | irelSleep | reclaim | reclaimRelock | reclaimRemove
  | reclaimLoop | reclaimLast | reclaimSleep | reclaimFree => exact hfit.elim

omit [DecidableEq τ] in
theorem live {t : τ} {ip : ℕ} (hs : (s.pc t).Safe s) (ht : (s.pc t).touches=some ip) :
    (s.inode ip).freed=false := by
  have hfit := h.fits t
  by_cases hm : (s.pc t).maker.inode=some ip
  · exact (hfit.maker hm).2.1
  -- what is left is the inode that was found and is now locked
  have hp : s.pc t=.ixlock ip := by
    cases hp : s.pc t <;> simp_all [Pc.touches,Pc.Fits,Pc.maker,Maker.inode]
  rw [hp] at hs hfit
  by_contra hf
  have hi := (h.calm ip hfit).2.2.2 (by simpa using hf)
  rw [show (s.inode ip).init=false from hs] at hi
  cases hi

theorem next (x : Act τ) (hx : x.IsVget) (hs : NoLostWakeup s x)
    (hn : State.next x s=some s') : Steady s' := by
  cases State.next_taken hn with
  | call hp =>
    exact h.goto _ _ trivial (by rw [hp]; rfl) (h.lock_same _ _ (by rw [State.lockRoles,hp]; rfl))
  | putNone hp =>
    exact h.goto _ _ trivial (by rw [hp]; rfl) (h.lock_same _ _ (by rw [State.lockRoles,hp]; rfl))
  | put hp => exact h.set _ _ _ _ rfl trivial (by rw [hp]; rfl) (by rw [State.lockRoles,hp]; rfl)
  | reclaim => exact absurd rfl (hx _ _)
  | fault ht hf =>
    rw [h.live hs ht] at hf
    cases hf
  | step hstep => exact h.step rfl hs hstep

end

end Steady

theorem vget_init_steady (h : (vgetMachine τ).init s) : Steady s := by
  obtain ⟨hlock,hchain,hfresh,hpc,hfault⟩ := h
  have hr (t : τ) : s.lockRoles t=.out := by rw [State.lockRoles,hpc t]; rfl
  refine ⟨hfault,⟨.inl hlock,?_,?_,?_⟩,?_,?_,?_,?_,?_⟩
  · simp [hlock,hr,LockRole.Holds]
  · simp [hr,LockRole.Holds]
  · simp [hr]
  · simp [hchain]
  · simp [hpc,Pc.Fits]
  · simp [hfresh]
  · simp [hfresh]
  · simp [hpc,Pc.maker,Maker.inode]

end Ext2fsX.Vget
