import Ext2fsX.Vget.Vget
import Mathlib.Data.Fintype.Basic

namespace Ext2fsX.Vget

open Framework

variable {τ : Type} [DecidableEq τ]

/-- What a thread's position says about the hash chain. -/
inductive Stage where
  | other
  | picked (ip : ℕ)
  | making
  | inserting (ip : ℕ)
  | creating (ip : ℕ)
  | got (ip : ℕ)
  | reclaiming

def Pc.stage : Pc → Stage
  | ixlock ip | initSleep ip | initWoken ip => .picked ip
  | malloc => .making
  | insert ip => .inserting ip
  | wakeTest ip | wake ip | dropArg ip | dropCas ip _ | bread ip | vinit ip | vnodeCreate ip
  | relock ip _ | irelse ip => .creating ip
  | getwithvid ip | done (some ip) | gone (some ip) => .got ip
  | reclaim _ | reclaimUpdate _ | reclaimRelock _ | reclaimRemove _ | reclaimLoop _
  | reclaimSleep _ | reclaimFree _ => .reclaiming
  | _ => .other

theorem Pc.stage_woken (p : Pc) : p.woken.stage=p.stage := by
  cases p <;> rfl

def Stage.Making : Stage → Prop
  | .making | .inserting _ => True
  | _ => False

instance : DecidablePred Stage.Making
  | .making => .isTrue trivial
  | .inserting _ => .isTrue trivial
  | .other => .isFalse id
  | .picked _ => .isFalse id
  | .creating _ => .isFalse id
  | .got _ => .isFalse id
  | .reclaiming => .isFalse id

def Act.IsVget (x : Act τ) : Prop := ∀ t ip,x≠.reclaim t ip

instance : DecidablePred (Act.IsVget (τ := τ))
  | .reclaim t ip => .isFalse (fun h => h t ip rfl)
  | .call _ => .isTrue (fun _ _ => nofun)
  | .put _ => .isTrue (fun _ _ => nofun)
  | .run _ _ => .isTrue (fun _ _ => nofun)

def Pc.Wins (v : ℤ) (p : Pc) : Prop := p=.takeCas v

deriving instance Decidable for Pc.Wins

variable (s : State τ)

/-- Only while the chain is empty and no other call is on its way to insert an inode. -/
def WinsAlone (x : Act τ) : Prop :=
  (s.pc x.thread).Wins s.hashLock → s.chain=[] ∧ ∀ u,¬(s.pc u).stage.Making

instance [Fintype τ] (s : State τ) (x : Act τ) : Decidable (WinsAlone s x) :=
  inferInstanceAs (Decidable (_ → _ ∧ _))

/-- What a thread's stage says of the chain and of the inode it names. -/
def Stage.Fits : Stage → Prop
  | .other => True
  | .picked ip => ip < s.fresh
  | .making => s.chain=[]
  | .inserting ip => s.chain=[] ∧ ip < s.fresh ∧ (s.inode ip).init=true
  | .creating ip => ip∈s.chain ∧ (s.inode ip).init=true
  | .got ip => ip∈s.chain ∧ (s.inode ip).init=false
  | .reclaiming => False

/-- From winning the hash lock to the end of the creation. -/
def Stage.Busy : Stage → Prop
  | .making | .inserting _ | .creating _ => True
  | _ => False

structure Chained : Prop where
  short : s.chain.length≤1
  below : ∀ ip∈s.chain,ip < s.fresh
  hashed : ∀ ip < s.fresh,((s.inode ip).hashed=true ↔ ip∈s.chain)

omit [DecidableEq τ] in
theorem Chained.eq_singleton {s : State τ} {ip : ℕ} (h : Chained s) (hm : ip∈s.chain) :
    s.chain=[ip] := by
  have hs := h.short
  cases hc : s.chain with
  | nil => simp [hc] at hm
  | cons a l =>
    rw [hc] at hs hm
    have hl : l=[] := by simpa using hs
    subst hl
    rw [List.mem_singleton.mp hm]

/-- The invariant of the runs in which the lock is only won alone. -/
structure Unique : Prop extends Chained s where
  fits : ∀ t,(s.pc t).stage.Fits s
  alone : ∀ t u,(s.pc t).stage.Busy → (s.pc u).stage.Busy → t=u

/-- Nothing of the chain changes and nobody's position says more about it. -/
structure Quiet (s s' : State τ) : Prop where
  chain : s'.chain=s.chain
  fresh : s'.fresh=s.fresh
  init : ∀ ip,(s'.inode ip).init=(s.inode ip).init
  hashed : ∀ ip,(s'.inode ip).hashed=(s.inode ip).hashed
  stage : ∀ t,(s'.pc t).stage=(s.pc t).stage ∨ (s'.pc t).stage=.other

omit [DecidableEq τ] in
theorem Unique.quiet {s s' : State τ} (h : Unique s) (q : Quiet s s') : Unique s' := by
  have busy (t : τ) (ht : (s'.pc t).stage.Busy) : (s.pc t).stage.Busy := by
    rcases q.stage t with he | he
    · exact he ▸ ht
    · rw [he] at ht
      exact ht.elim
  refine ⟨⟨?_,?_,?_⟩,?_,fun t u ht hu => h.alone t u (busy t ht) (busy u hu)⟩
  · rw [q.chain]
    exact h.short
  · rw [q.chain,q.fresh]
    exact h.below
  · simp only [q.fresh,q.hashed,q.chain]
    exact h.hashed
  · intro t
    have hf := h.fits t
    rcases q.stage t with he | he
    · rw [he]
      cases hs : (s.pc t).stage <;> simp_all [Stage.Fits,q.chain,q.fresh,q.init]
    · rw [he]
      trivial

namespace Quiet

variable (s : State τ) (t : τ) (p : Pc)

theorem goto (hp : p.stage=(s.pc t).stage ∨ p.stage=.other) : Quiet s (s.goto t p) := by
  refine ⟨rfl,rfl,fun _ => rfl,fun _ => rfl,fun u => ?_⟩
  by_cases hu : u=t
  · subst hu
    simpa using hp
  · simp [hu]

omit [DecidableEq τ] in
theorem setInode (ip : ℕ) (i : Inode τ) (hi : i.init=(s.inode ip).init)
    (hh : i.hashed=(s.inode ip).hashed) : Quiet s (s.setInode ip i) := by
  refine ⟨rfl,rfl,?_,?_,fun u => .inl rfl⟩
  · exact (Function.forall_update_iff s.inode (fun jp j => j.init=(s.inode jp).init)).mpr
      ⟨hi,fun _ _ => rfl⟩
  · exact (Function.forall_update_iff s.inode (fun jp j => j.hashed=(s.inode jp).hashed)).mpr
      ⟨hh,fun _ _ => rfl⟩

omit [DecidableEq τ] in
theorem wakeup (c : Chan) : Quiet s (s.wakeup c) := by
  refine ⟨rfl,rfl,fun _ => rfl,fun _ => rfl,fun u => .inl ?_⟩
  rcases s.wakeup_pc u c with he | he
  · rw [he]
  · rw [he,Pc.stage_woken]

omit [DecidableEq τ] in
theorem compareAndSwap (v w : ℤ) : Quiet s (s.compareAndSwap v w) :=
  ⟨by simp,by simp,by simp,by simp,by simp⟩

end Quiet

namespace Unique

variable {s s' : State τ}

section

variable (h : Unique s)

include h

variable (t : τ)

theorem stay (p : Pc) (hp : p.stage=(s.pc t).stage ∨ p.stage=.other) : Unique (s.goto t p) :=
  h.quiet (Quiet.goto s t p hp)

theorem change (hc : Chained s')
    (hpc : ∀ u,u≠t → (s'.pc u).stage=(s.pc u).stage) (ht : (s'.pc t).stage.Fits s')
    (hb : (s'.pc t).stage.Busy → ∀ u,u≠t → ¬(s.pc u).stage.Busy)
    (hk : ∀ u,u≠t → (s.pc u).stage.Fits s') : Unique s' := by
  refine ⟨hc,fun u => ?_,fun u v hu hv => ?_⟩
  · by_cases he : u=t
    · exact he ▸ ht
    · rw [hpc u he]
      exact hk u he
  by_cases he : u=t <;> by_cases hf : v=t
  · exact he.trans hf.symm
  · rw [hpc v hf] at hv
    exact absurd hv (hb (he ▸ hu) v hf)
  · rw [hpc u he] at hu
    exact absurd hu (hb (hf ▸ hv) u he)
  · rw [hpc u he] at hu
    rw [hpc v hf] at hv
    exact h.alone u v hu hv

theorem goto (p : Pc) (hp : p.stage.Fits s)
    (hb : p.stage.Busy → ∀ u,¬(s.pc u).stage.Busy) : Unique (s.goto t p) := by
  refine h.change t ⟨h.short,h.below,h.hashed⟩ ?_ ?_ ?_ (fun u _ => h.fits u)
  · intro u hu
    rw [State.goto_of_ne _ _ _ _ hu]
  · rw [State.goto_self]
    exact hp
  · rw [State.goto_self]
    exact fun hq u _ => hb hq u

omit [DecidableEq τ] in
/-- While a thread is busy with the chain, what the others know is an inode at most. -/
theorem others {t u : τ} (ht : (s.pc t).stage.Busy) (hu : u≠t) :
    (s.pc u).stage=.other ∨ ∃ ip < s.fresh,(s.pc u).stage=.picked ip := by
  have hut : ¬(s.pc u).stage.Busy := fun hb => hu (h.alone u t hb ht)
  have hft := h.fits t
  have hfu := h.fits u
  cases hc : (s.pc u).stage with
  | other => exact .inl rfl
  | picked ip =>
    rw [hc] at hfu
    exact .inr ⟨ip,hfu,rfl⟩
  | got jp =>
    -- the chain is not empty, and its only inode is initialised
    rw [hc] at hfu
    have hone := h.eq_singleton hfu.1
    cases hd : (s.pc t).stage <;> simp_all [Stage.Fits,Stage.Busy]
    obtain ⟨rfl,hi⟩ := hft
    exact absurd hi (by simp [hfu])
  | _ => simp_all [Stage.Fits,Stage.Busy]

theorem busy (ht : (s.pc t).stage.Busy) (hc : Chained s')
    (hf : s.fresh ≤ s'.fresh) (hpc : ∀ u,u≠t → (s'.pc u).stage=(s.pc u).stage)
    (hfit : (s'.pc t).stage.Fits s') : Unique s' := by
  refine h.change t hc hpc hfit (fun _ u hu hb => hu (h.alone u t hb ht)) (fun u hu => ?_)
  rcases h.others ht hu with he | ⟨ip,hip,he⟩
  · rw [he]
    trivial
  · rw [he]
    exact Nat.lt_of_lt_of_le hip hf

theorem malloc (hp : s.pc t=.malloc) (i : Inode τ) (hi : i.init=true) (hh : i.hashed=false) :
    Unique ({ s.setInode s.fresh i with fresh := s.fresh+1 }.goto t (.insert s.fresh)) := by
  have hnil : s.chain=[] := by simpa [hp,Pc.stage,Stage.Fits] using h.fits t
  refine h.busy t (by rw [hp]; trivial) ⟨h.short,?_,?_⟩ (Nat.le_succ _) ?_ ?_
  · simp [hnil]
  · intro ip hip
    by_cases he : ip=s.fresh
    · subst he
      simp [hh,hnil]
    · have hlt : ip < s.fresh := by simp only [State.goto_fresh] at hip; omega
      simpa [he] using h.hashed ip hlt
  · intro u hu
    simp [hu]
  · simp [Pc.stage,Stage.Fits,hnil,hi]

variable (ip : ℕ)

theorem insert (hp : s.pc t=.insert ip) :
    Unique ({ s.setInode ip { s.inode ip with hashed := true } with
      chain := ip::s.chain }.goto t (.wakeTest ip)) := by
  obtain ⟨hnil,hlt,hinit⟩ : s.chain=[] ∧ ip < s.fresh ∧ (s.inode ip).init=true := by
    simpa [hp,Pc.stage,Stage.Fits] using h.fits t
  refine h.busy t (by rw [hp]; trivial) ⟨?_,?_,?_⟩ le_rfl ?_ ?_
  · simp [hnil]
  · simpa [hnil] using hlt
  · intro jp hjp
    by_cases he : jp=ip
    · simp [he]
    · simpa [he] using h.hashed jp hjp
  · intro u hu
    simp [hu]
  · simp [Pc.stage,Stage.Fits,hinit]

omit [DecidableEq τ] in
theorem chain_of_creating {t : τ} {ip : ℕ} (hp : (s.pc t).stage=.creating ip) :
    s.chain=[ip] ∧ (s.pc t).stage.Busy := by
  have hf := h.fits t
  rw [hp] at hf ⊢
  exact ⟨h.eq_singleton hf.1,trivial⟩

theorem finish (hp : (s.pc t).stage=.creating ip) : Unique (s.vgetFinish t ip) := by
  obtain ⟨hchain,hb⟩ := h.chain_of_creating hp
  have base : Unique ((s.setInode ip { s.inode ip with
      init := false
      initWait := false }).goto t (.done (some ip))) := by
    refine h.busy t hb ⟨h.short,h.below,?_⟩ le_rfl ?_ ?_
    · intro jp hjp
      by_cases he : jp=ip
      · subst he
        simpa using h.hashed jp hjp
      · simpa [he] using h.hashed jp hjp
    · intro u hu
      simp [hu]
    · simp [Pc.stage,Stage.Fits,hchain]
  simp only [State.vgetFinish]
  split
  · exact base.quiet (Quiet.wakeup _ _)
  · exact base

theorem remove (hp : (s.pc t).stage=.creating ip) :
    Unique ((s.hashRemove ip).goto t (.irelLoop ip)) := by
  obtain ⟨hchain,hb⟩ := h.chain_of_creating hp
  have hip := h.below ip (by simp [hchain])
  have hhash : (s.inode ip).hashed=true := (h.hashed ip hip).mpr (by simp [hchain])
  simp only [State.hashRemove,hhash,if_true]
  refine h.busy t hb ⟨?_,?_,?_⟩ le_rfl ?_ ?_
  · simp [hchain]
  · simp [hchain]
  · intro jp hjp
    by_cases he : jp=ip
    · simp [he,hchain]
    · simpa [he,hchain] using h.hashed jp hjp
  · intro u hu
    simp [hu]
  · simp [Pc.stage,Stage.Fits]

theorem hashGetLocked (i : Inode τ) (hp : (s.pc t).stage=.picked ip)
    (hi : i.init=(s.inode ip).init) (hh : i.hashed=(s.inode ip).hashed) :
    Unique (s.hashGetLocked t ip i) := by
  have hlt : ip < s.fresh := by simpa [hp,Stage.Fits] using h.fits t
  unfold State.hashGetLocked
  split
  · have base := h.quiet (Quiet.setInode s ip { i with
      initWait := true
      refct := i.refct+1 } hi hh)
    exact base.stay t _ (.inl hp.symm)
  · rename_i hinit
    have base := h.quiet (Quiet.setInode s ip i hi hh)
    split
    · rename_i hhash
      have hmem : ip∈s.chain := (h.hashed ip hlt).mp (hh ▸ hhash)
      exact base.goto t _ ⟨hmem,by simpa using hinit⟩ nofun
    · exact base.stay t _ (.inr rfl)

theorem step {t : τ} {p : Pc} (hp : s.pc t=p)
    (hw : p.Wins s.hashLock → s.chain=[] ∧ ∀ u,¬(s.pc u).stage.Making) (hs : s.Step t p s') :
    Unique s' := by
  have hcalls := h.fits t
  rw [hp] at hcalls
  have stay (q : Pc) (hq : q.stage=p.stage ∨ q.stage=.other) : Unique (s.goto t q) :=
    h.stay t q (hp ▸ hq)
  have set (ip : ℕ) (i : Inode τ) (q : Pc) (hi : i.init=(s.inode ip).init)
      (hh : i.hashed=(s.inode ip).hashed) (hq : q.stage=p.stage ∨ q.stage=.other) :
      Unique ((s.setInode ip i).goto t q) :=
    (h.quiet (Quiet.setInode s ip i hi hh)).stay t q (by simpa [hp] using hq)
  have swap (v w : ℤ) (q : Pc) (hq : q.stage=p.stage ∨ q.stage=.other) :
      Unique ((s.compareAndSwap v w).goto t q) :=
    (h.quiet (Quiet.compareAndSwap s v w)).stay t q (by simpa [hp] using hq)
  cases hs with
  | move hm => exact stay _ (by cases hm <;> simp [Pc.stage])
  | @pick ip l hc => exact h.goto t _ (h.below ip (by simp [hc])) nofun
  | ixlock | initWoken => exact h.hashGetLocked t _ _ (by rw [hp]; rfl) rfl rfl
  | markCas => exact swap _ _ _ (.inr rfl)
  | lockMsleep => exact stay _ (.inr rfl)
  | @takeCas v =>
    split
    case isTrue hv =>
      obtain ⟨hnil,hnone⟩ := hw (hv ▸ rfl)
      refine (h.quiet (Quiet.compareAndSwap s v 1)).goto t _ ?_ (fun _ u => ?_)
      · simpa [Pc.stage,Stage.Fits] using hnil
      · -- nobody creates an inode of an empty chain
        have hu := h.fits u
        have hmk := hnone u
        rw [(s.compareAndSwap_frame v 1).1]
        cases hc : (s.pc u).stage <;> simp_all [Stage.Fits,Stage.Busy,Stage.Making]
    · exact swap _ _ _ (.inr rfl)
  | malloc => exact h.malloc t hp _ rfl rfl
  | insert => exact h.insert t _ hp
  | wakeTest => exact stay _ (.inl (by split <;> rfl))
  | wake =>
    refine (h.quiet (Quiet.wakeup s .hashLock)).stay t _ (.inl ?_)
    rw [State.wakeup]
    simp [hp,Pc.chan,Pc.stage]
  | dropCas => exact swap _ _ _ (.inl rfl)
  | finish => exact h.finish t _ (by rw [hp]; rfl)
  | irelse => exact h.remove t _ (by rw [hp]; rfl)
  | irelWake => exact (h.quiet (Quiet.wakeup s _)).stay t _ (.inr rfl)
  | irelNotify | irelLoop | irelLast | irelRelock | irelSleep | irelFree =>
    exact set _ _ _ rfl rfl (.inr rfl)
  | reclaim | reclaimRelock | reclaimRemove | reclaimLoop | reclaimLast | reclaimSleep
  | reclaimFree => exact hcalls.elim
  | _ => exact set _ _ _ rfl rfl (.inl rfl)

theorem next (x : Act τ) (hx : x.IsVget) (hw : WinsAlone s x)
    (hn : State.next x s=some s') : Unique s' := by
  cases State.next_taken hn with
  | call | putNone => exact h.stay _ _ (.inr rfl)
  | @put t ip hp =>
    have base := h.quiet (Quiet.setInode s ip { s.inode ip with
      users := (s.inode ip).users.erase t } rfl rfl)
    exact base.stay t _ (.inl (by rw [State.setInode_pc,hp]; rfl))
  | reclaim => exact absurd rfl (hx _ _)
  | fault => exact h.quiet ⟨rfl,rfl,fun _ => rfl,fun _ => rfl,fun _ => .inl rfl⟩
  | step hs => exact h.step rfl hw hs

end

end Unique

theorem vget_init_unique (h : (vgetMachine τ).init s) : Unique s := by
  obtain ⟨-,hchain,hfresh,hpc,-⟩ := h
  have hst (t : τ) : (s.pc t).stage=.other := by rw [hpc t]; rfl
  exact ⟨⟨by simp [hchain],by simp [hchain],by simp [hfresh]⟩,by simp [hst,Stage.Fits],
    by simp [hst,Stage.Busy]⟩

/-- In such runs the hash has one entry at most and all calls that succeed return the same inode. -/
theorem vget_unique_of_winsAlone (s : State τ)
    (h : (vgetMachine τ).Reach (fun s x => x.IsVget ∧ WinsAlone s x) s) :
    s.chain.length≤1 ∧
      ∀ t u ip jp,(s.pc t).result=some ip → (s.pc u).result=some jp → ip=jp := by
  have hu : Unique s := by
    refine Machine.Reach.invariant vget_init_unique ?_ h
    intro s s' x hs hok hn
    exact hs.next x hok.1 hok.2 hn
  have res (t : τ) (ip : ℕ) (hr : (s.pc t).result=some ip) : ip∈s.chain := by
    have hf := hu.fits t
    cases hp : s.pc t <;> simp_all [Pc.result,Pc.stage,Stage.Fits]
  refine ⟨hu.short,?_⟩
  intro t u ip jp ht hj
  have h2 := res u jp hj
  rw [hu.eq_singleton (res t ip ht)] at h2
  exact (List.mem_singleton.mp h2).symm

def waitThenHit : List (Act Bool) :=
  [.call true,.call false]++List.replicate 4 (.run true .ok)++List.replicate 2 (.run false .ok)++
    List.replicate 9 (.run true .ok)++List.replicate 4 (.run false .ok)

theorem vget_unique_of_winsAlone_two :
    ∃ s,(vgetMachine Bool).exec waitThenHit (vgetStart Bool)=some s ∧
      (s.pc true).result=some 0 ∧ (s.pc false).result=some 0 ∧ s.chain.length≤1 := by
  have he : (vgetMachine Bool).exec waitThenHit (vgetStart Bool)=some _ := rfl
  have hm : (vgetMachine Bool).Meets (fun s x => x.IsVget ∧ WinsAlone s x) waitThenHit
      (vgetStart Bool) := by decide
  have hr := (Machine.Reach.start (vgetStart_init Bool)).exec hm he
  exact ⟨_,he,by decide,by decide,(vget_unique_of_winsAlone _ hr).1⟩

def bothWin : List (Act Bool) :=
  [.call true,.call false]++List.replicate 2 (.run true .ok)++List.replicate 2 (.run false .ok)++
    List.replicate 2 (.run true .ok)++List.replicate 2 (.run false .ok)++
    List.replicate 9 (.run true .ok)++List.replicate 9 (.run false .ok)

theorem vget_not_unique :
    ¬∀ s : State Bool,(vgetMachine Bool).Reach (fun _ x => x.IsVget) s →
      s.chain.length≤1 ∧
        ∀ t u ip jp,(s.pc t).result=some ip → (s.pc u).result=some jp → ip=jp := by
  intro h
  have he : (vgetMachine Bool).exec bothWin (vgetStart Bool)=some _ := rfl
  have hm : (vgetMachine Bool).Meets (fun _ x => x.IsVget) bothWin (vgetStart Bool) := by decide
  have hr := h _ ((Machine.Reach.start (vgetStart_init Bool)).exec hm he)
  exact absurd (hr.2 true false 0 1 rfl rfl) (by decide)

end Ext2fsX.Vget
