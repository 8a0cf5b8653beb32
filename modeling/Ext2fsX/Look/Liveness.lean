import Ext2fsX.Framework.Execution
import Ext2fsX.Look.Exclusion

namespace Ext2fsX.Look

open Framework

variable {τ : Type} [DecidableEq τ]

def Code.Waits : Code → Prop
  | acquire _ _ | wait _ _ | gap _ | asleep _ _ | woken _ _ | take _ => True
  | _ => False

theorem Code.Waits.roused {k : Code} (h : k.Waits) : k.roused.Waits := by
  cases k <;> exact h

def Act.RunOf (t : τ) (x : Act τ) : Prop := ∃ b,x=.run t b

namespace State

def Woken (t : τ) (s : State τ) : Prop := ∃ nolck k,s.code t=.woken nolck k

def Chance (t : τ) (s : State τ) : Prop := s.Woken t ∧ s.lock=none ∧ s.look=false

/-- `IN_LOOK` is clear, but `v` still holds the inode lock. -/
structure Held (t v : τ) (k : Code) (s : State τ) : Prop where
  woken : s.Woken t
  look : s.look=false
  lock : s.lock=some v
  code : s.code v=k

end State

/-- And a woken thread that again and again could take the lock while `IN_LOOK` is clear does so. -/
structure Fair (e : (lookMachine τ).Execution) : Prop where
  runs : ∀ t,e.WeakFair (Act.RunOf t)
  chance : ∀ t,e.StrongFair (fun s x => Act.RunOf t x ∧ s.Chance t)

/-- Whoever holds `IN_LOOK` gives it up. -/
def HoldersFinish (e : (lookMachine τ).Execution) : Prop :=
  ∀ u n,(e.state n).looking u=true → ∃ m,n ≤ m ∧ (e.state m).looking u=false

namespace Step

variable {s s' : State τ} {t u : τ}

theorem run (hs : Step s t s') (h : s.code t≠.ret) : (s.code t).Safe s ∧ ∃ b,s.run t b=some s' := by
  rcases hs with ⟨f,n,hn⟩ | hs
  · simp [State.next,h] at hn
  · exact hs

/-- Only giving `IN_LOOK` up changes another thread; and who holds the lock keeps it, with `IN_LOOK`
as it is. -/
theorem keeps (hg : Guarded s) (hs : Step s u s') (hu : t≠u) : ((∃ k,s.code u=.giveUp k ∧
      s'=(({ s with look := false }.setLooking u false).iwake).goto u k) ∨
    (s'.code t=s.code t ∧ ∀ v,s.looking v=true → s'.looking v=true)) ∧
    (s.lock=some t → s'.lock=some t ∧ s'.look=s.look) := by
  have hr := hg.runs u
  have hlock (hl : s.lock=some t) : decide (s.lock=some u)=false := by simpa [hl] using hu
  have hlooking (v : τ) (hv : s.looking v=true) : Function.update s.looking u true v=true := by
    by_cases h : v=u <;> simp [h,hv]
  rcases hs with ⟨f,n,hn⟩ | ⟨hok,b,hn⟩
  · simp only [State.next,Option.ite_none_right_eq_some,Option.some.injEq] at hn
    obtain ⟨-,rfl⟩ := hn
    exact ⟨.inr ⟨s.goto_other _ hu,fun _ hv => hv⟩,fun hl => ⟨hl,rfl⟩⟩
  unfold State.run at hn
  cases hc : s.code u with
  | ret | asleep => simp [hc] at hn
  | lock | woken =>
    simp only [hc,Option.ite_none_right_eq_some,Option.some.injEq] at hn
    obtain ⟨hl,rfl⟩ := hn
    exact ⟨.inr ⟨State.goto_other _ _ hu,fun _ hv => hv⟩,fun h => by simp [hl] at h⟩
  | choice | acquire | gap =>
    simp only [hc,Option.some.injEq] at hn
    subst hn
    exact ⟨.inr ⟨s.goto_other _ hu,fun _ hv => hv⟩,fun hl => ⟨hl,rfl⟩⟩
  | unlock | wait =>
    simp only [hc,Option.some.injEq] at hn hr
    subst hn
    exact ⟨.inr ⟨State.goto_other _ _ hu,fun _ hv => hv⟩,fun hl => by rw [hlock hl] at hr; cases hr.1⟩
  | take =>
    simp only [hc,Option.some.injEq] at hn hr
    subst hn
    exact ⟨.inr ⟨State.goto_other _ _ hu,hlooking⟩,fun hl => by rw [hlock hl] at hr; cases hr.1⟩
  | giveUp k =>
    simp only [hc,Option.some.injEq] at hn hr
    exact ⟨.inl ⟨k,rfl,hn.symm⟩,fun hl => by rw [hlock hl] at hr; cases hr.1⟩
  | dropLoad =>
    rw [hc] at hok
    exact hok.elim
  | dropStore | wakeTest | wakeLoad | wakeStore | wakeup =>
    rw [hc] at hr
    exact hr.elim

theorem code_of_ne (hg : Guarded s) (hs : Step s u s') (hu : t≠u) :
    s'.code t=s.code t ∨ s'.code t=(s.code t).roused := by
  rcases (hs.keeps hg hu).1 with ⟨k,-,rfl⟩ | hk
  · rw [State.goto_other _ _ hu]
    rcases ({ s with look := false }.setLooking u false).iwake_fields.2.2.2.1 t with hc | ⟨-,hc⟩
    · exact .inr hc
    · exact .inl hc
  · exact .inl hk.1

theorem code_of_awake (hg : Guarded s) (hs : Step s u s') (hu : t≠u)
    (h : (s.code t).roused=s.code t) : s'.code t=s.code t := by
  rcases hs.code_of_ne hg hu with he | he
  · exact he
  · rw [he,h]

theorem woken_of_ne (hg : Guarded s) (hs : Step s u s') (hu : t≠u) (h : s.Woken t) :
    s'.Woken t := by
  obtain ⟨nolck,k,h⟩ := h
  refine ⟨nolck,k,?_⟩
  rw [hs.code_of_awake hg hu (by rw [h]; rfl),h]

theorem not_asleep {nolck : Bool} {k : Code} (hs : Step s t s') : s.code t≠.asleep nolck k := by
  intro hc
  obtain ⟨-,b,hb⟩ := hs.run (by simp [hc])
  simp [State.run,hc] at hb

variable {nolck : Bool} {k : Code}

section

variable (hs : Step s t s')

include hs

theorem take_inv (hc : s.code t=.take k) :
    s'=({ s with look := true }.setLooking t true).goto t k := by
  obtain ⟨-,b,hb⟩ := hs.run (by simp [hc])
  simpa [State.run,hc] using hb.symm

theorem acquire_inv (hc : s.code t=.acquire nolck k) :
    s'=s.goto t (if s.look then .wait nolck k else .take k) := by
  obtain ⟨-,b,hb⟩ := hs.run (by simp [hc])
  simpa [State.run,hc] using hb.symm

theorem wait_inv (hc : s.code t=.wait nolck k) : s'={ s with lookWait := true, lock := none }.goto t
      (if nolck then .gap k else .asleep false k) := by
  obtain ⟨-,b,hb⟩ := hs.run (by simp [hc])
  simpa [State.run,hc] using hb.symm

theorem gap_inv (hc : s.code t=.gap k) : s'=s.goto t (.asleep true k) := by
  obtain ⟨-,b,hb⟩ := hs.run (by simp [hc])
  simpa [State.run,hc] using hb.symm

theorem woken_inv (hc : s.code t=.woken nolck k) :
    s.lock=none ∧ s'={ s with lock := some t }.goto t (.acquire nolck k) := by
  obtain ⟨-,b,hb⟩ := hs.run (by simp [hc])
  simpa [State.run,hc,eq_comm] using hb

end

end Step

namespace State

/-- Thread `t` sleeps, or if `w` has been woken, while `u` has `IN_LOOK`. -/
structure Behind (t u : τ) (w : Prop) (s : State τ) : Prop where
  waits : (∃ nolck k,s.code t=.asleep nolck k) ∨ (w ∧ s.Woken t)
  looking : s.looking u=true

/-- The thread holds the lock and is about to test `IN_LOOK`, which is as `b` says. -/
def Tests (t : τ) (b : Bool) (s : State τ) : Prop :=
  (∃ nolck k,s.code t=.acquire nolck k) ∧ s.look=b

/-- That wait is over: `IN_LOOK` has been given up, or is found set once more. -/
def Released (t : τ) (w : Prop) (s : State τ) : Prop :=
  (∃ v k,k.Quits ∧ s.Held t v k) ∨ (w ∧ s.Tests t true)

end State

/-- Giving `IN_LOOK` up wakes whoever sleeps for it. -/
theorem Guarded.giveUp_held {s : State τ} (hg : Guarded s) {t v : τ} {k : Code} (htv : t≠v)
    (hc : s.code v=.giveUp k) (hw : (∃ nolck j,s.code t=.asleep nolck j) ∨ s.Woken t) :
    ((({ s with look := false }.setLooking v false).iwake).goto v k).Held t v k := by
  have hr := hg.runs v
  rw [hc] at hr
  obtain ⟨hlock,hlook,-,hcode,-⟩ := ({ s with look := false }.setLooking v false).iwake_fields
  refine ⟨?_,hlook,hlock.trans (of_decide_eq_true hr.1),State.goto_self ..⟩
  unfold State.Woken
  rw [State.goto_other _ _ htv]
  rcases hw with ⟨nolck,j,hj⟩ | ⟨nolck,j,hj⟩
  · have hrt := hg.runs t
    rw [hj] at hrt
    rcases hcode t with h | ⟨h,-⟩
    · exact ⟨nolck,j,by rw [h]; simp [State.setLooking,hj,Code.roused]⟩
    · exact absurd hrt.2.2.1 (by simpa [State.setLooking] using h)
  · rcases hcode t with h | ⟨-,h⟩
    · exact ⟨nolck,j,by rw [h]; simp [State.setLooking,hj,Code.roused]⟩
    · exact ⟨nolck,j,h.trans hj⟩

theorem Guarded.behind_step {s s' : State τ} (hg : Guarded s) {t u v : τ} {w : Prop}
    (h : s.Behind t u w) (hs : Step s v s') :
    s'.Behind t u w ∨ s'.Released t w := by
  by_cases htv : t=v
  · subst htv
    rcases h.waits with ⟨nolck,k,hk⟩ | ⟨hw,nolck,k,hk⟩
    · exact absurd hk hs.not_asleep
    · rw [(hs.woken_inv hk).2]
      exact .inr (.inr ⟨hw,⟨nolck,k,State.goto_self ..⟩,hg.flag.mpr ⟨u,h.looking⟩⟩)
  · rcases (hs.keeps hg htv).1 with ⟨k,hc,rfl⟩ | ⟨hc,hl⟩
    · have hr := hg.runs v
      rw [hc] at hr
      exact .inr (.inl ⟨v,k,hr.2.2.1,hg.giveUp_held htv hc (h.waits.imp_right And.right)⟩)
    · refine .inl ⟨?_,hl u h.looking⟩
      simpa only [State.Woken,hc] using h.waits

namespace State.Held

variable {s : State τ} {t v : τ} {k : Code}

theorem runs (h : s.Held t v k) (hg : Guarded s) : k.Runs s.look s.lookWait true (s.looking v) :=
  h.code ▸ hg.locked h.lock

theorem ne (h : s.Held t v k) (hg : Guarded s) : t≠v := by
  rintro rfl
  have hr := h.runs hg
  obtain ⟨nolck,j,hj⟩ := h.woken
  rw [← h.code,hj] at hr
  cases hr.1

end State.Held

def Code.Ready : Code → Prop
  | ret | lock _ | asleep _ _ | woken _ _ => False
  | _ => True

theorem Code.Ready.roused {k : Code} (h : k.Ready) : k.roused=k := by
  cases k <;> first | rfl | exact h.elim

theorem Code.Runs.ready {k : Code} {look lookWait looking : Bool}
    (h : k.Runs look lookWait true looking) : k.Ready := by
  cases k with
  | ret | lock | asleep | woken => cases h.1
  | _ => trivial

theorem Code.Ready.enabled {s : State τ} {t : τ} (h : (s.code t).Ready) :
    (lookMachine τ).Enabled (Act.RunOf t) s := by
  suffices hr : ∃ s',s.run t true=some s' by
    obtain ⟨s',hr⟩ := hr
    exact ⟨.run t true,s',⟨true,rfl⟩,hr⟩
  unfold State.run
  cases hc : s.code t with
  | ret | lock | asleep | woken =>
    rw [hc] at h
    exact h.elim
  | _ => exact ⟨_,rfl⟩

section Runs

variable {e : (lookMachine τ).Execution} (hok : e.Meets NoLostWakeup)

include hok

theorem guarded_at (n : ℕ) : Guarded (e.state n) := guarded_of_reach (e.reach hok n)

theorem step_at (n : ℕ) (x : Act τ) (hx : e.label n=some x) :
    Step (e.state n) x.thread (e.state (n+1)) :=
  step_of_next (hok n x hx) (e.step n x hx)

section

variable (hfair : Fair e)

include hfair

variable (t : τ)

theorem leadsTo_step {P : State τ → Prop}
    (hen : ∀ s,Guarded s → P s → (lookMachine τ).Enabled (Act.RunOf t) s)
    (hother : ∀ s s' u,Guarded s → t≠u → Step s u s' → P s → P s') :
    e.LeadsTo P (fun s' => ∃ s,Guarded s ∧ P s ∧ Step s t s') := by
  refine (hfair.runs t).leadsTo ?_ (fun n hp => hen _ (guarded_at hok n) hp) ?_
  · intro n x hp hx
    by_cases ht : t=x.thread
    · exact .inr ⟨_,guarded_at hok n,hp,ht ▸ step_at hok n x hx⟩
    · exact .inl (hother _ _ _ (guarded_at hok n) ht (step_at hok n x hx) hp)
  · rintro n x hp hx ⟨b,rfl⟩
    exact ⟨_,guarded_at hok n,hp,step_at hok n _ hx⟩

theorem code_leadsTo {P : Code → Prop} {Q : State τ → Prop}
    (hready : ∀ k,P k → k.Ready) (hstep : ∀ s s',P (s.code t) → Step s t s' → Q s') :
    e.LeadsTo (fun s => P (s.code t)) Q := by
  refine (leadsTo_step hok hfair t (fun s _ h => (hready _ h).enabled) ?_).trans ?_
  · intro s s' u hg hu hs h
    rw [hs.code_of_awake hg hu (hready _ h).roused]
    exact h
  · rintro n ⟨s,-,h,hs⟩
    exact ⟨n,le_rfl,hstep s _ h hs⟩

theorem take_leadsTo : e.LeadsTo (fun s => ∃ k,s.code t=.take k) (fun s => s.looking t=true) := by
  refine code_leadsTo hok hfair t (P := fun c => ∃ k,c=.take k) ?_ ?_
  · rintro c ⟨k,rfl⟩
    trivial
  · rintro s s' ⟨k,hk⟩ hs
    rw [hs.take_inv hk]
    exact Function.update_self ..

theorem gap_leadsTo :
    e.LeadsTo (fun s => ∃ k,s.code t=.gap k) (fun s => ∃ nolck k,s.code t=.asleep nolck k) := by
  refine code_leadsTo hok hfair t (P := fun c => ∃ k,c=.gap k) ?_ ?_
  · rintro c ⟨k,rfl⟩
    trivial
  · rintro s s' ⟨k,hk⟩ hs
    exact ⟨true,k,by rw [hs.gap_inv hk]; exact State.goto_self ..⟩

theorem wait_leadsTo : e.LeadsTo (fun s => ∃ nolck k,s.code t=.wait nolck k)
      (fun s => ∃ nolck k,s.code t=.asleep nolck k) := by
  have hw : e.LeadsTo (fun s => ∃ nolck k,s.code t=.wait nolck k)
      (fun s => (∃ k,s.code t=.gap k) ∨ ∃ nolck k,s.code t=.asleep nolck k) := by
    refine code_leadsTo hok hfair t (P := fun c => ∃ nolck k,c=.wait nolck k) ?_ ?_
    · rintro c ⟨nolck,k,rfl⟩
      trivial
    · rintro s s' ⟨nolck,k,hk⟩ hs
      rw [hs.wait_inv hk,State.goto_self]
      cases nolck with
      | true => exact .inl ⟨k,rfl⟩
      | false => exact .inr ⟨false,k,rfl⟩
  refine hw.trans ?_
  rintro n (h | h)
  · exact gap_leadsTo hok hfair t n h
  · exact ⟨n,le_rfl,h⟩

/-- The lock keeps `IN_LOOK` as it is until the thread has tested it. -/
theorem tests_leadsTo (b : Bool) : e.LeadsTo (State.Tests t b)
      (fun s => ∃ nolck k,s.code t=if b then .wait nolck k else .take k) := by
  refine (leadsTo_step hok hfair t ?_ ?_).trans ?_
  · rintro s - ⟨⟨nolck,k,hk⟩,-⟩
    exact Code.Ready.enabled (by rw [hk]; trivial)
  · rintro s s' u hg hu hs ⟨⟨nolck,k,hk⟩,hl⟩
    have hr := hg.runs t
    rw [hk] at hr
    obtain ⟨-,hlook⟩ := (hs.keeps hg hu).2 (of_decide_eq_true hr.1)
    exact ⟨⟨nolck,k,by rw [hs.code_of_awake hg hu (by rw [hk]; rfl),hk]⟩,hlook.trans hl⟩
  · rintro n ⟨s,-,⟨⟨nolck,k,hk⟩,hl⟩,hs⟩
    refine ⟨n,le_rfl,nolck,k,?_⟩
    rw [hs.acquire_inv hk,hl]
    exact State.goto_self ..

theorem clear_leadsTo : e.LeadsTo (State.Tests t false) (fun s => s.looking t=true) := by
  refine (tests_leadsTo hok hfair t false).trans ?_
  rintro n ⟨_,k,hk⟩
  exact take_leadsTo hok hfair t n ⟨k,hk⟩

theorem held_step (t v : τ) (k : Code) : e.LeadsTo (State.Held t v k)
      (fun s' => ∃ s,Guarded s ∧ State.Held t v k s ∧ Step s v s') := by
  refine leadsTo_step hok hfair v ?_ ?_
  · intro s hg h
    exact Code.Ready.enabled (h.code ▸ (h.runs hg).ready)
  intro s s' u hg hu hs h
  have hut : t≠u := by
    rintro rfl
    obtain ⟨nolck,j,hj⟩ := h.woken
    have hl := (hs.woken_inv hj).1
    rw [h.lock] at hl
    cases hl
  obtain ⟨hlock,hlook⟩ := (hs.keeps hg hu).2 h.lock
  refine ⟨hs.woken_of_ne hg hut h.woken,hlook.trans h.look,hlock,?_⟩
  rw [hs.code_of_awake hg hu (h.code ▸ (h.runs hg).ready.roused),h.code]

theorem held_take_leadsTo (t v : τ) (j : Code) {R : Prop} (hR : R) :
    e.LeadsTo (State.Held t v (.take j)) (fun s => s.Chance t ∨ (R ∧ s.Woken t ∧ s.look=true)) := by
  refine (held_step hok hfair t v _).trans ?_
  rintro n ⟨s,hg,h,hs⟩
  refine ⟨n,le_rfl,.inr ⟨hR,hs.woken_of_ne hg (h.ne hg) h.woken,?_⟩⟩
  rw [hs.take_inv h.code]
  rfl

/-- `v` holds the lock: it sets the flag or lets the woken thread have its chance; after giving the
flag up only the latter. -/
theorem held_leadsTo (t v : τ) (k : Code) : e.LeadsTo (State.Held t v k)
      (fun s => s.Chance t ∨ (¬k.Quits ∧ s.Woken t ∧ s.look=true)) := by
  induction k with
  | unlock j ih =>
    refine (held_step hok hfair t v _).trans ?_
    rintro n ⟨s,hg,h,hs⟩
    obtain ⟨-,b,hb⟩ := hs.run (by simp [h.code])
    simp only [State.run,h.code,Option.some.injEq] at hb
    refine ⟨n,le_rfl,.inl ⟨hs.woken_of_ne hg (h.ne hg) h.woken,?_,?_⟩⟩
    · rw [← hb]
      rfl
    · rw [← hb]
      exact h.look
  | choice a b iha ihb =>
    refine (held_step hok hfair t v _).trans ?_
    rintro n ⟨s,hg,h,hs⟩
    have hw := hs.woken_of_ne hg (h.ne hg) h.woken
    obtain ⟨-,c,hc⟩ := hs.run (by simp [h.code])
    simp only [State.run,h.code,Option.some.injEq] at hc
    have held (k : Code) (he : s.goto v k=e.state n) : (e.state n).Held t v k :=
      ⟨hw,by rw [← he]; exact h.look,by rw [← he]; exact h.lock,by simp [← he]⟩
    cases c with
    | true =>
      obtain ⟨m,hm,hq⟩ := iha n (held a hc)
      exact ⟨m,hm,hq.imp_right (And.imp_left (fun hq hc => hq hc.1))⟩
    | false =>
      obtain ⟨m,hm,hq⟩ := ihb n (held b hc)
      exact ⟨m,hm,hq.imp_right (And.imp_left (fun hq hc => hq hc.2))⟩
  | acquire nolck j ih =>
    refine (held_step hok hfair t v _).trans (.trans ?_ (held_take_leadsTo hok hfair t v j id))
    rintro n ⟨s,hg,h,hs⟩
    have he := hs.acquire_inv h.code
    rw [h.look] at he
    refine ⟨n,le_rfl,hs.woken_of_ne hg (h.ne hg) h.woken,?_,?_,?_⟩
    · rw [he]
      exact h.look
    · rw [he]
      exact h.lock
    · rw [he]
      exact State.goto_self ..
  | take j ih => exact held_take_leadsTo hok hfair t v j id
  | wait nolck j ih =>
    intro n h
    have hl := (h.runs (guarded_at hok n)).2.2.1
    rw [h.look] at hl
    cases hl
  | giveUp j ih =>
    intro n h
    have hr := h.runs (guarded_at hok n)
    have hl := (guarded_at hok n).flag.mpr ⟨v,hr.2.1⟩
    rw [h.look] at hl
    cases hl
  | ret | lock | gap | asleep | woken | dropLoad =>
    intro n h
    cases (h.runs (guarded_at hok n)).1
  | dropStore | wakeTest | wakeLoad | wakeStore | wakeup =>
    intro n h
    exact (h.runs (guarded_at hok n)).elim

section

variable (hfin : HoldersFinish e)

include hfin

/-- While `u` has `IN_LOOK`: `u` gives it up and wakes, or the thread finds it still set. -/
theorem behind_leadsTo (t u : τ) (w : Prop) :
    e.LeadsTo (State.Behind t u w) (fun s => s.Chance t ∨ (w ∧ s.Tests t true)) := by
  intro n h
  obtain ⟨m,hm,hno⟩ := hfin u n h.looking
  have hstep (k : ℕ) (x : Act τ) (hk : (e.state k).Behind t u w) (hx : e.label k=some x) :
      (e.state (k+1)).Behind t u w ∨ (e.state (k+1)).Released t w :=
    (guarded_at hok k).behind_step hk (step_at hok k x hx)
  rcases Machine.Execution.keepsUntil hstep hm h with hb | ⟨k,hnk,-,hr⟩
  · rw [hb.looking] at hno
    cases hno
  · rcases hr with ⟨v,c,hc,hv⟩ | hr
    · obtain ⟨j,hj,hq⟩ := held_leadsTo hok hfair t v c k hv
      exact ⟨j,hnk.trans hj,hq.imp_right (fun hq => absurd hc hq.1)⟩
    · exact ⟨k,hnk,.inr hr⟩

theorem asleep_leadsTo (t : τ) :
    e.LeadsTo (fun s => ∃ nolck k,s.code t=.asleep nolck k) (State.Chance t) := by
  rintro n ⟨nolck,k,hk⟩
  have hg := guarded_at hok n
  have hr := hg.runs t
  rw [hk] at hr
  obtain ⟨u,hu⟩ := hg.flag.mp (hg.waited hr.2.2.1)
  obtain ⟨m,hm,h⟩ := behind_leadsTo hok hfair hfin t u False n ⟨.inl ⟨nolck,k,hk⟩,hu⟩
  exact ⟨m,hm,h.resolve_right And.left⟩

theorem woken_leadsTo (t : τ) :
    e.LeadsTo (State.Woken t) (fun s => s.Chance t ∨ s.Tests t true) := by
  have set (n : ℕ) (hw : (e.state n).Woken t) (hl : (e.state n).look=true) :
      ∃ m,n ≤ m ∧ ((e.state m).Chance t ∨ (e.state m).Tests t true) := by
    obtain ⟨u,hu⟩ := (guarded_at hok n).flag.mp hl
    obtain ⟨m,hm,h⟩ := behind_leadsTo hok hfair hfin t u True n ⟨.inr ⟨trivial,hw⟩,hu⟩
    exact ⟨m,hm,h.imp_right And.right⟩
  intro n hw
  cases hl : (e.state n).look with
  | true => exact set n hw hl
  | false =>
    cases hk : (e.state n).lock with
    | none => exact ⟨n,le_rfl,.inl ⟨hw,hk,hl⟩⟩
    | some v =>
      obtain ⟨m,hm,h | ⟨-,hw,hl⟩⟩ := held_leadsTo hok hfair t v _ n ⟨hw,hl,hk,rfl⟩
      · exact ⟨m,hm,.inl h⟩
      · obtain ⟨j,hj,h⟩ := set m hw hl
        exact ⟨j,hm.trans hj,h⟩

theorem set_leadsTo (t : τ) : e.LeadsTo (State.Tests t true) (State.Chance t) := by
  refine (tests_leadsTo hok hfair t true).trans ?_
  rintro n ⟨nolck,k,hk⟩
  exact (wait_leadsTo hok hfair t).trans (asleep_leadsTo hok hfair hfin t) n ⟨nolck,k,hk⟩

/-- Whoever waits either gets `IN_LOOK` or its chance. -/
theorem waits_leadsTo (t : τ) :
    e.LeadsTo (fun s => (s.code t).Waits) (fun s => s.Chance t ∨ s.looking t=true) := by
  have chance {P : State τ → Prop} (h : e.LeadsTo P (State.Chance t)) :
      e.LeadsTo P (fun s => s.Chance t ∨ s.looking t=true) :=
    h.trans (fun n hc => ⟨n,le_rfl,.inl hc⟩)
  have own {P : State τ → Prop} (h : e.LeadsTo P (fun s => s.looking t=true)) :
      e.LeadsTo P (fun s => s.Chance t ∨ s.looking t=true) :=
    h.trans (fun n hc => ⟨n,le_rfl,.inr hc⟩)
  have hsleep := asleep_leadsTo hok hfair hfin t
  intro n h
  cases hc : (e.state n).code t with
  | acquire nolck k =>
    cases hl : (e.state n).look with
    | true => exact chance (set_leadsTo hok hfair hfin t) n ⟨⟨nolck,k,hc⟩,hl⟩
    | false => exact own (clear_leadsTo hok hfair t) n ⟨⟨nolck,k,hc⟩,hl⟩
  | wait nolck k => exact chance ((wait_leadsTo hok hfair t).trans hsleep) n ⟨nolck,k,hc⟩
  | gap k => exact chance ((gap_leadsTo hok hfair t).trans hsleep) n ⟨k,hc⟩
  | asleep nolck k => exact chance hsleep n ⟨nolck,k,hc⟩
  | woken nolck k =>
    obtain ⟨m,hm,hw | hw⟩ := woken_leadsTo hok hfair hfin t n ⟨nolck,k,hc⟩
    · exact ⟨m,hm,.inl hw⟩
    · obtain ⟨j,hj,hw⟩ := chance (set_leadsTo hok hfair hfin t) m hw
      exact ⟨j,hm.trans hj,hw⟩
  | take k => exact own (take_leadsTo hok hfair t) n ⟨k,hc⟩
  | _ =>
    rw [hc] at h
    exact h.elim

end

end

theorem waits_step (t : τ) (n : ℕ) (x : Act τ) (h : ((e.state n).code t).Waits)
    (hx : e.label n=some x) :
    ((e.state (n+1)).code t).Waits ∨ (e.state (n+1)).looking t=true := by
  have hs := step_at hok n x hx
  by_cases ht : t=x.thread
  · rw [← ht] at hs
    cases hc : (e.state n).code t with
    | acquire nolck k =>
      rw [hs.acquire_inv hc,State.goto_self]
      cases (e.state n).look <;> exact .inl trivial
    | wait nolck k =>
      rw [hs.wait_inv hc,State.goto_self]
      cases nolck <;> exact .inl trivial
    | gap k =>
      rw [hs.gap_inv hc,State.goto_self]
      exact .inl trivial
    | asleep nolck k => exact absurd hc hs.not_asleep
    | woken nolck k =>
      rw [(hs.woken_inv hc).2,State.goto_self]
      exact .inl trivial
    | take k =>
      rw [hs.take_inv hc]
      exact .inr (Function.update_self ..)
    | _ =>
      rw [hc] at h
      exact h.elim
  · rcases hs.code_of_ne (guarded_at hok n) ht with he | he
    · rw [he]
      exact .inl h
    · rw [he]
      exact .inl h.roused

theorem waits_obtains (hfair : Fair e) (hfin : HoldersFinish e) (t : τ) :
    e.LeadsTo (fun s => (s.code t).Waits) (fun s => s.looking t=true) := by
  have hfree : e.LeadsTo (fun s => (s.code t).Waits)
      (fun s => s.Tests t false ∨ s.looking t=true) := by
    refine (hfair.chance t).leadsTo ?_ ?_ ?_
    · intro n x h hx
      exact (waits_step hok t n x h hx).imp_right .inr
    · intro n h
      obtain ⟨m,hm,hc | hl⟩ := waits_leadsTo hok hfair hfin t n h
      · obtain ⟨nolck,k,hk⟩ := hc.1
        have hn : (lookMachine τ).next (.run t true) (e.state m)=
            some ({ e.state m with lock := some t }.goto t (.acquire nolck k)) := by
          simp [lookMachine,State.next,State.run,hk,hc.2.1]
        exact ⟨m,hm,.inl ⟨.run t true,_,⟨⟨true,rfl⟩,hc⟩,hn⟩⟩
      · exact ⟨m,hm,.inr (.inr hl)⟩
    · rintro n x h hx ⟨⟨b,rfl⟩,⟨nolck,k,hk⟩,-,hl⟩
      obtain ⟨-,he⟩ := (step_at hok n _ hx).woken_inv hk
      rw [he]
      exact .inl ⟨⟨nolck,k,State.goto_self ..⟩,hl⟩
  refine hfree.trans ?_
  rintro n (h | h)
  · exact clear_leadsTo hok hfair t n h
  · exact ⟨n,le_rfl,h⟩

end Runs

/-- In the runs in which no wakeup is lost at most one thread has `IN_LOOK`, nobody returns with it,
and in the fair ones every waiting thread gets it. -/
theorem look_of_noLostWakeup {e : (lookMachine τ).Execution} (hok : e.Meets NoLostWakeup) :
    (∀ n t u,(e.state n).looking t=true → (e.state n).looking u=true → t=u) ∧
    (∀ n t,(e.state n).code t=.ret → (e.state n).looking t=false) ∧
    (Fair e → HoldersFinish e → ∀ n t,((e.state n).code t).Waits →
      ∃ m,n ≤ m ∧ (e.state m).looking t=true) := by
  refine ⟨fun n => (guarded_at hok n).one,fun n t ht => ?_,fun hfair hfin n t h => ?_⟩
  · have hr := (guarded_at hok n).runs t
    rw [ht] at hr
    exact hr.2
  · exact waits_obtains hok hfair hfin t n h

/-- A lookup has `IN_LOOK`, and an insertion waits for it and has released the lock. -/
def waitForLookup : List (Act Bool) :=
  [.call true .lookup 0,.run true false]++List.replicate 4 (.run true true)++
    .call false .direnter 0::List.replicate 3 (.run false true)

def sleepInTime : List (Act Bool) :=
  waitForLookup++.run false true::List.replicate 3 (.run true true)++
    List.replicate 8 (.run false true)

/-- The insertion sleeps after the lookup has given `IN_LOOK` up. -/
def sleepTooLate : List (Act Bool) :=
  waitForLookup++List.replicate 3 (.run true true)++[.run false true]

/-- A schedule after which nobody can move and nobody has `IN_LOOK`. -/
theorem fair_of_exec (as : List (Act τ)) (s : State τ)
    (h : (lookMachine τ).exec as (lookStart τ)=some s) (hrest : ∀ t b,s.run t b=none)
    (hlook : ∀ t,s.looking t=false) :
    Fair (.ofExec _ _ _ _ (lookStart_init τ) h) ∧
      HoldersFinish (.ofExec _ _ _ _ (lookStart_init τ) h) := by
  refine ⟨⟨fun t => ?_,fun t => ?_⟩,fun u n _ => ?_⟩
  · apply Machine.Execution.ofExec_weakFair
    rintro ⟨x,s',⟨b,rfl⟩,hn⟩
    simp [lookMachine,State.next,hrest t b] at hn
  · apply Machine.Execution.ofExec_strongFair
    rintro ⟨x,s',⟨⟨b,rfl⟩,-⟩,hn⟩
    simp [lookMachine,State.next,hrest t b] at hn
  · refine ⟨max n as.length,le_max_left _ _,?_⟩
    rw [Machine.Execution.ofExec_rest _ _ _ _ _ h _ (le_max_right _ _)]
    exact hlook u

theorem look_of_noLostWakeup_two :
    ∃ e : (lookMachine Bool).Execution,((e.state 11).code false).Waits ∧
      ∃ m,11 ≤ m ∧ (e.state m).looking false=true := by
  have he : (lookMachine Bool).exec sleepInTime (lookStart Bool)=some _ := rfl
  have hm : (lookMachine Bool).Meets NoLostWakeup sleepInTime (lookStart Bool) := by decide
  obtain ⟨hfair,hfin⟩ := fair_of_exec _ _ he (fun t b => by cases t <;> rfl)
    (fun t => by cases t <;> rfl)
  have hlook := look_of_noLostWakeup
    (Machine.Execution.ofExec_meets _ _ _ _ (lookStart_init Bool) he hm)
  exact ⟨.ofExec _ _ _ _ (lookStart_init Bool) he,trivial,hlook.2.2 hfair hfin 11 false trivial⟩

/-- The wakeup comes between the release of the inode lock in `ext2_direnter` and its sleep. -/
theorem look_never_obtained :
    ¬∀ e : (lookMachine Bool).Execution,Fair e → HoldersFinish e →
      ∀ n t,((e.state n).code t).Waits → ∃ m,n ≤ m ∧ (e.state m).looking t=true := by
  intro h
  have he : (lookMachine Bool).exec sleepTooLate (lookStart Bool)=some _ := rfl
  obtain ⟨hfair,hfin⟩ := fair_of_exec _ _ he (fun t b => by cases t <;> rfl)
    (fun t => by cases t <;> rfl)
  obtain ⟨m,hle,hl⟩ := h _ hfair hfin 14 false trivial
  rw [Machine.Execution.ofExec_rest _ _ _ _ _ he m hle] at hl
  exact nomatch (show false=true from hl)

end Ext2fsX.Look
