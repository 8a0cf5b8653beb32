import Ext2fsX.Framework.Execution
import Ext2fsX.Vget.Progress
import Mathlib.Data.Set.Finite.Basic

namespace Ext2fsX.Vget

open Framework

variable {τ : Type} [DecidableEq τ]

def Pc.weight : Pc → ℕ
  | start | hashGet | ixlock _ | getwithvid _ | lockTest | lockWhile | markArg | markCas _
  | lockMsleep | lockSleep | takeArg | takeCas _ => 4
  | malloc | insert _ | wakeTest _ | wake _ => 1
  | _ => 0

def lockWeight (lock : ℤ) : ℕ := if lock=0 then 0 else if lock=1 then 2 else 1

/-- How many steps a call takes at most while the hash lock does not change. -/
def Pc.steps (lock : ℤ) : Pc → ℕ
  | start => 50
  | hashGet => 20
  | ixlock _ => 5
  | getwithvid _ => 4
  | lockTest => 19
  | lockWhile => if lock=0 then 21 else 18
  | takeArg => 18
  | takeCas v => if lock=v then 10 else 21
  | markArg => 17
  | markCas _ => 16
  | lockMsleep => 15
  | malloc => 40
  | insert _ => 39
  | wakeTest _ => 38
  | wake _ => 37
  | dropArg _ => 36
  | dropCas _ _ => 35
  | bread _ => 34
  | vinit _ => 33
  | vnodeCreate _ => 32
  | relock _ _ => 31
  | irelse _ => 30
  | irelLoop _ => 29
  | irelFree _ => 28
  | done _ => 1
  | _ => 0

theorem Pc.weight_le (p : Pc) : p.weight≤Pc.start.weight := by
  cases p <;> simp [weight]

theorem Pc.steps_le (lock : ℤ) (p : Pc) : p.steps lock≤Pc.start.steps lock := by
  cases p with
  | lockWhile =>
    simp only [steps]
    split <;> omega
  | takeCas v =>
    simp only [steps]
    split <;> omega
  | _ => simp [steps]

/-- What one step of thread `t` does to the two counts; no call starts afresh. -/
structure Lowers (s s' : State τ) (t : τ) : Prop where
  started : ∀ u,s'.pc u=.start → s.pc u=.start
  counts :
    (s'.hashLock=s.hashLock ∧ (∀ u,u≠t → s'.pc u=s.pc u) ∧
      (s'.pc t).weight=(s.pc t).weight ∧
      (s'.pc t).steps s.hashLock<(s.pc t).steps s.hashLock) ∨
    ((∀ u,u≠t → (s'.pc u).weight=(s.pc u).weight) ∧
      (s'.pc t).weight+lockWeight s'.hashLock<(s.pc t).weight+lockWeight s.hashLock)

def stepsLeft (F : Finset τ) (s : State τ) : ℕ ×ₗ ℕ :=
  toLex ((∑ t ∈ F,(s.pc t).weight)+lockWeight s.hashLock,∑ t ∈ F,(s.pc t).steps s.hashLock)

variable {s s' : State τ}

theorem Lowers.stepsLeft {t : τ} (h : Lowers s s' t) (F : Finset τ) (ht : t∈F) : stepsLeft F s' < stepsLeft F s := by
  rcases h.counts with ⟨hl,hpc,hw,hs⟩ | ⟨hw,hs⟩
  · have hsame := sum_change F (fun u => (s.pc u).weight) (fun u => (s'.pc u).weight) t ht
      (fun u hu => by rw [hpc u hu])
    have hless := sum_change F (fun u => (s.pc u).steps s.hashLock)
      (fun u => (s'.pc u).steps s.hashLock) t ht (fun u hu => by rw [hpc u hu])
    refine Prod.Lex.toLex_lt_toLex.mpr (.inr ⟨?_,?_⟩)
    · dsimp only at hsame ⊢
      rw [hl]
      omega
    · dsimp only at hless ⊢
      rw [hl]
      omega
  · have hless := sum_change F (fun u => (s.pc u).weight) (fun u => (s'.pc u).weight) t ht hw
    refine Prod.Lex.toLex_lt_toLex.mpr (.inl ?_)
    omega

theorem Lowers.goto {s r : State τ} {t : τ} (q : Pc) (hl : r.hashLock=s.hashLock) (hpc : r.pc=s.pc)
    (hq : (q.weight=(s.pc t).weight ∧ q.steps s.hashLock<(s.pc t).steps s.hashLock) ∨
      q.weight<(s.pc t).weight) : Lowers s (r.goto t q) t := by
  have hst (u : τ) (hu : (r.goto t q).pc u=.start) : s.pc u=.start := by
    by_cases he : u=t
    · subst he
      rw [State.goto_self] at hu
      have h1 := (s.pc u).weight_le
      have h2 := (s.pc u).steps_le s.hashLock
      rw [hu] at hq
      omega
    · rwa [State.goto_of_ne _ _ _ _ he,hpc] at hu
  refine ⟨hst,?_⟩
  rcases hq with ⟨hw,hs⟩ | hw
  · refine .inl ⟨hl,?_,?_,?_⟩
    · intro u hu
      rw [State.goto_of_ne _ _ _ _ hu,hpc]
    · rw [State.goto_self]
      exact hw
    · rw [State.goto_self]
      exact hs
  · refine .inr ⟨?_,?_⟩
    · intro u hu
      rw [State.goto_of_ne _ _ _ _ hu,hpc]
    · rw [State.goto_self,State.goto_hashLock,hl]
      omega

theorem Lowers.swap {s : State τ} {t : τ} (q : Pc) (v w : ℤ) (hv : s.hashLock=v) (hst : q≠.start)
    (hq : q.weight+lockWeight w<(s.pc t).weight+lockWeight v) :
    Lowers s ((s.compareAndSwap v w).goto t q) t := by
  refine ⟨?_,.inr ⟨?_,?_⟩⟩
  · intro u hu
    by_cases he : u=t
    · subst he
      rw [State.goto_self] at hu
      exact absurd hu hst
    · simpa [he] using hu
  · intro u hu
    simp [hu]
  · rw [State.goto_self,State.goto_hashLock,State.compareAndSwap,if_pos hv,hv]
    exact hq

omit [DecidableEq τ] in
theorem State.compareAndSwap_hashLock (s : State τ) (v w : ℤ) (h : s.hashLock=v → v=w) :
    (s.compareAndSwap v w).hashLock=s.hashLock := by
  unfold State.compareAndSwap
  split
  · rename_i hv
    exact (hv.trans (h hv)).symm
  · rfl

theorem Steady.lowers (h : Steady s) {t : τ} {p : Pc} (hp : s.pc t=p)
    (hs : p.Safe s) (hst : s.Step t p s') : Lowers s s' t := by
  have hfit : p.Fits s := hp ▸ h.fits t
  have calm {ip : ℕ} (hip : p.maker.inode=some ip) := h.calm ip (hfit.maker hip).1
  have go (q : Pc) (r : State τ) (hl : r.hashLock=s.hashLock) (hpc : r.pc=s.pc)
      (hq : (q.weight=p.weight ∧ q.steps s.hashLock<p.steps s.hashLock) ∨ q.weight<p.weight) :
      Lowers s (r.goto t q) t := Lowers.goto q hl hpc (hp ▸ hq)
  cases hst with
  | move hmove =>
    refine go _ _ rfl rfl ?_
    cases hmove with
    | @stale ip hd => exact absurd ((h.calm ip hfit).2.2.1.symm.trans hd) Bool.false_ne_true
    | lazymod | updated => exact hfit.elim
    | free hl | busy hl | again hl | wait hl => simp [Pc.weight,Pc.steps,hl]
    | _ => simp [Pc.weight,Pc.steps]
  | pick => exact go _ _ rfl rfl (by simp [Pc.weight,Pc.steps])
  | @ixlock ip =>
    rw [State.hashGetLocked,if_neg (by simp [show (s.inode ip).init=false from hs])]
    split
    · exact go _ _ rfl rfl (by simp [Pc.weight,Pc.steps])
    · exact go _ _ rfl rfl (by simp [Pc.weight])
  | getwithvid => exact go _ _ rfl rfl (by simp [Pc.weight])
  | @markCas v =>
    by_cases hv : s.hashLock=v ∧ v≠-1
    · have hone : v=1 := by
        rcases h.lock.word with h0 | h1 | h2
        · exact absurd (hv.1.symm.trans h0) (hs hv.1)
        · exact hv.1.symm.trans h1
        · exact absurd (hv.1.symm.trans h2) hv.2
      refine Lowers.swap _ v (-1) hv.1 (by simp) ?_
      rw [hone]
      simp [hp,Pc.weight,lockWeight]
    · refine go _ _ (s.compareAndSwap_hashLock v (-1) ?_) (by simp) (by simp [Pc.weight,Pc.steps])
      intro he
      by_contra hne
      exact hv ⟨he,hne⟩
  | @takeCas v =>
    split
    case isTrue hv =>
      refine Lowers.swap _ v 1 hv (by simp) ?_
      rw [hs hv]
      simp [hp,Pc.weight,lockWeight]
    case isFalse hv =>
      refine go _ _ (s.compareAndSwap_hashLock v 1 (fun he => absurd he hv)) (by simp) ?_
      simp [Pc.weight,Pc.steps,hv]
  | lockMsleep | malloc | insert | vinit | vnodeCreate | relock | irelLast | irelFree =>
    exact go _ _ rfl rfl (by simp [Pc.weight,Pc.steps])
  | wakeTest =>
    split
    · exact go _ _ rfl rfl (by simp [Pc.weight,Pc.steps])
    · exact go _ _ rfl rfl (by simp [Pc.weight])
  | wake =>
    have woken (u : τ) : (s.wakeup .hashLock).pc u=s.pc u ∨
        (s.pc u=.lockSleep ∧ (s.wakeup .hashLock).pc u=.lockWhile) := by
      rw [h.wakeup_pc u]
      split
      case isTrue hu => exact .inr ⟨hu,rfl⟩
      · exact .inl rfl
    refine ⟨?_,.inr ⟨?_,?_⟩⟩
    · intro u hu
      by_cases he : u=t
      · subst he
        rw [State.goto_self] at hu
        cases hu
      · rw [State.goto_of_ne _ _ _ _ he] at hu
        rcases woken u with hw | ⟨-,hw⟩
        · rwa [hw] at hu
        · rw [hw] at hu
          cases hu
    · intro u hu
      rw [State.goto_of_ne _ _ _ _ hu]
      rcases woken u with hw | ⟨hq,hw⟩
      · rw [hw]
      · rw [hw,hq]
        rfl
    · simp [hp,Pc.weight]
  | @dropCas ip v =>
    have hv : s.hashLock=v := hs
    have hne : v≠0 := by
      rw [← hv]
      refine h.lock.held.mpr ⟨t,?_⟩
      rw [State.lockRoles,hp]
      trivial
    refine Lowers.swap _ v 0 hv (by simp) ?_
    have : 0<lockWeight v := by
      unfold lockWeight
      rw [if_neg hne]
      split <;> omega
    simpa [hp,Pc.weight,lockWeight] using this
  | @finish ip =>
    rw [State.vgetFinish,if_neg (by simp [(calm rfl).1])]
    exact go _ _ rfl rfl (by simp [Pc.weight,Pc.steps])
  | irelse => exact go _ _ (by simp) (by simp) (by simp [Pc.weight,Pc.steps])
  | @irelNotify ip hw => exact absurd ((calm rfl).1.symm.trans hw) Bool.false_ne_true
  | @irelLoop ip hc =>
    rw [(calm rfl).2.1] at hc
    exact absurd hc (lt_irrefl 0)
  | initWoken | irelWake | irelRelock | irelSleep | reclaim | reclaimRelock | reclaimRemove
  | reclaimLoop | reclaimLast | reclaimSleep | reclaimFree => exact hfit.elim

theorem Steady.next_lowers (h : Steady s) (x : Act τ) (hx : x.IsVget)
    (hs : NoLostWakeup s x) (hn : State.next x s=some s') : Lowers s s' x.thread := by
  cases State.next_taken hn with
  | call hp | putNone hp | put hp => exact Lowers.goto _ rfl rfl (by simp [hp,Pc.weight,Pc.steps])
  | reclaim => exact absurd rfl (hx _ _)
  | fault ht hf =>
    rw [h.live hs ht] at hf
    cases hf
  | step hstep => exact h.lowers rfl hs hstep

def Act.RunOf (t : τ) (x : Act τ) : Prop := ∃ e,x=.run t e

/-- The call of thread `t` has returned. -/
def Pc.Returned (p : Pc) : Prop := ∃ r,p=.done r ∨ p=.gone r

theorem Steady.enabled (h : Steady s) (t : τ) (e : Env) (hb : s.body t e=some s') : (vgetMachine τ).Enabled (Act.RunOf t) s := by
  have hrun : ∃ r,s.run t e=some r := by
    unfold State.run
    split
    · exact ⟨_,hb⟩
    · split
      · exact ⟨_,rfl⟩
      · exact ⟨_,hb⟩
  obtain ⟨r,hr⟩ := hrun
  refine ⟨.run t e,r,⟨e,rfl⟩,?_⟩
  simp only [vgetMachine,State.next,h.fault,Bool.false_eq_true,if_false]
  exact hr

/-- Whoever holds an inode's lock or the hash lock has a step to take. -/
theorem body_of_holder (s : State τ) (t : τ)
    (h : (∃ ip,(s.pc t).maker=.locked ip) ∨ (s.pc t).lockRole.Holds) : ∃ r,s.body t .ok=some r := by
  cases hp : s.pc t with
  | malloc | insert jp | wakeTest jp | wake jp | dropArg jp | dropCas jp v | bread jp | vinit jp
  | irelse jp => exact ⟨_,by simp only [State.body,hp]; rfl⟩
  | irelLoop jp =>
    simp only [State.body,hp]
    split
    · exact ⟨_,rfl⟩
    · split
      · exact ⟨_,rfl⟩
      · exact ⟨_,rfl⟩
  | _ =>
    rw [hp] at h
    obtain ⟨ip,hm⟩ | hh := h
    · cases hm
    · exact hh.elim

theorem Steady.returned {s : State τ} (h : Steady s)
    (hno : ∀ t,¬(vgetMachine τ).Enabled (Act.RunOf t) s) (t : τ) :
    s.pc t=.start ∨ (s.pc t).Returned := by
  have dead (u : τ) (e : Env) {r : State τ} (hb : s.body u e=some r) : False :=
    hno u (h.enabled u e hb)
  have holder (u : τ) (hu : (∃ ip,(s.pc u).maker=.locked ip) ∨ (s.pc u).lockRole.Holds) : False :=
    let ⟨_,hr⟩ := body_of_holder s u hu
    dead u .ok hr
  have unlocked (ip : ℕ) (hip : ip < s.fresh) : (s.inode ip).owner=none := by
    cases ho : (s.inode ip).owner with
    | none => rfl
    | some u => exact (holder u (.inl ⟨ip,h.owner ip hip u ho⟩)).elim
  have hfit := h.fits t
  cases hp : s.pc t with
  | start => exact .inl rfl
  | done r => exact .inr ⟨r,.inl rfl⟩
  | gone r => exact .inr ⟨r,.inr rfl⟩
  | ixlock ip =>
    rw [hp] at hfit
    exact (dead t .ok (by simp only [State.body,hp,State.ixlock,unlocked ip hfit,if_true]; rfl)).elim
  | relock ip made =>
    rw [hp] at hfit
    have ho := unlocked ip hfit.1
    exact (dead t .ok (by simp only [State.body,hp,State.ixlock,ho,if_true]; rfl)).elim
  | lockSleep =>
    obtain ⟨u,hu⟩ := h.lock.woken t (by rw [State.lockRoles,hp]; rfl)
    exact (holder u (.inr (LockWord.holds_of_wakes hu))).elim
  | getwithvid ip => exact (dead t .error (by simp only [State.body,hp]; rfl)).elim
  | hashGet =>
    cases hc : s.chain with
    | _ => exact (dead t .ok (by simp only [State.body,hp,hc]; rfl)).elim
  | irelLoop ip => exact (holder t (.inl ⟨ip,by rw [hp]; rfl⟩)).elim
  | initSleep | initWoken | irelWake | irelRelock | irelSleep | reclaim | reclaimUpdate
  | reclaimRelock | reclaimRemove | reclaimLoop | reclaimSleep | reclaimFree =>
    rw [hp] at hfit
    exact hfit.elim
  | _ => exact (dead t .ok (by simp only [State.body,hp]; rfl)).elim

variable (e : (vgetMachine τ).Execution)

def FairCalls : Prop := ∀ t,e.WeakFair (Act.RunOf t)

def callers : Set τ := {t | ∃ n x,e.label n=some x ∧ x.thread=t}

variable {e}

/-- In the fair runs of any number of calls in which no wakeup is lost, every call returns. -/
theorem vget_returns_of_noLostWakeup (hfair : FairCalls e) (hcalls : (callers e).Finite)
    (hok : e.Meets (fun s x => x.IsVget ∧ NoLostWakeup s x)) (t : τ) (n : ℕ)
    (ht : (e.state n).pc t≠.start) : ∃ m,n ≤ m ∧ ((e.state m).pc t).Returned := by
  have steady (k : ℕ) : Steady (e.state k) := by
    refine Machine.Reach.invariant vget_init_steady ?_ (e.reach hok k)
    intro s s' x hs hx hn
    exact hs.next x hx.1 hx.2 hn
  have lowers (k : ℕ) (x : Act τ) (hx : e.label k=some x) :
      Lowers (e.state k) (e.state (k+1)) x.thread :=
    (steady k).next_lowers x (hok k x hx).1 (hok k x hx).2 (e.step k x hx)
  have hcaller (k : ℕ) (x : Act τ) (hx : e.label k=some x) : x.thread∈hcalls.toFinset :=
    hcalls.mem_toFinset.mpr ⟨k,x,hx,rfl⟩
  obtain ⟨k,hk⟩ := e.quiesces (stepsLeft hcalls.toFinset)
    (fun m x hx => (lowers m x hx).stepsLeft _ (hcaller m x hx))
  have started (m : ℕ) (hm : n ≤ m) : (e.state m).pc t≠.start := by
    induction m,hm using Nat.le_induction with
    | base => exact ht
    | succ m _ ih =>
      cases hl : e.label m with
      | none =>
        rw [e.stutter m hl]
        exact ih
      | some x => exact fun hc => ih ((lowers m x hl).started t hc)
  have hrest : e.state (max n k)=e.state k :=
    Machine.Execution.state_const k _ (le_max_right n k) (fun j hj _ => hk j hj)
  refine ⟨max n k,le_max_left n k,?_⟩
  have hend := (steady k).returned (fun u => (hfair u).disabled hk) t
  rw [← hrest] at hend
  exact hend.resolve_left (started _ (le_max_left n k))

def sleepThenHit : List (Act Bool) :=
  [.call true,.call false]++List.replicate 4 (.run true .ok)++List.replicate 6 (.run false .ok)++
    List.replicate 10 (.run true .ok)++List.replicate 4 (.run false .ok)

theorem vget_returns_of_noLostWakeup_two :
    ∃ e : (vgetMachine Bool).Execution,(e.state 12).pc false=.lockSleep ∧
      ∃ m,12 ≤ m ∧ ((e.state m).pc false).Returned := by
  have he : (vgetMachine Bool).exec sleepThenHit (vgetStart Bool)=some _ := rfl
  have hm : (vgetMachine Bool).Meets (fun s x => x.IsVget ∧ NoLostWakeup s x) sleepThenHit
      (vgetStart Bool) := by decide
  refine ⟨.ofExec _ _ _ _ (vgetStart_init Bool) he,rfl,?_⟩
  refine vget_returns_of_noLostWakeup ?_ (Set.toFinite _)
    (Machine.Execution.ofExec_meets _ _ _ _ _ he hm) false 12 (show Pc.lockSleep≠.start by decide)
  intro t
  refine Machine.Execution.ofExec_weakFair _ _ _ _ _ he ?_
  rintro ⟨x,s',⟨c,rfl⟩,hn⟩
  cases t <;> cases c <;> exact nomatch (show none=some s' from hn)

/-- The second call sleeps on `&ip->i_flags`; the first wakes `&ip->i_flag`. -/
def sleepOnFlags : List (Act Bool) :=
  .call true::List.replicate 11 (.run true .ok)++[.call false,.run false .ok,.run false .ok]++
    List.replicate 2 (.run true .ok)

theorem vget_never_returns :
    ¬∀ e : (vgetMachine Bool).Execution,FairCalls e → (callers e).Finite →
      e.Meets (fun _ x => x.IsVget) → ∀ t n,(e.state n).pc t≠.start →
        ∃ m,n ≤ m ∧ ((e.state m).pc t).Returned := by
  intro h
  have he : (vgetMachine Bool).exec sleepOnFlags (vgetStart Bool)=some _ := rfl
  have hm : (vgetMachine Bool).Meets (fun _ x => x.IsVget) sleepOnFlags (vgetStart Bool) := by
    decide
  have hfair : FairCalls (.ofExec _ _ _ _ (vgetStart_init Bool) he) := by
    intro t
    refine Machine.Execution.ofExec_weakFair _ _ _ _ _ he ?_
    rintro ⟨x,s',⟨c,rfl⟩,hn⟩
    cases t <;> cases c <;> exact nomatch (show none=some s' from hn)
  obtain ⟨m,hle,r,hr⟩ := h _ hfair (Set.toFinite _)
    (Machine.Execution.ofExec_meets _ _ _ _ _ he hm) false 17 (show Pc.initSleep 0≠.start by decide)
  rw [Machine.Execution.ofExec_rest _ _ _ _ _ he m hle] at hr
  rcases hr with hr | hr
  · exact nomatch (show Pc.initSleep 0=.done r from hr)
  · exact nomatch (show Pc.initSleep 0=.gone r from hr)

end Ext2fsX.Vget
