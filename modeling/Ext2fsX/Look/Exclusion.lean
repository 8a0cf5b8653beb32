import Ext2fsX.Look.Look
import Mathlib.Data.Fintype.Basic

namespace Ext2fsX.Look

open Framework

variable {τ : Type} [DecidableEq τ]

namespace Code

def Quits : Code → Prop
  | unlock _ => True
  | choice a b => a.Quits ∧ b.Quits
  | _ => False

/-- Entered with or without the lock and with or without `IN_LOOK`: both are given up on every path.
-/
def Fits : Bool → Bool → Code → Prop
  | locked,looking,ret => locked=false ∧ looking=false
  | locked,looking,lock k => locked=false ∧ k.Fits true looking
  | locked,looking,unlock k => locked=true ∧ k.Fits false looking
  | locked,looking,choice a b => a.Fits locked looking ∧ b.Fits locked looking
  | locked,looking,acquire _ k => locked=true ∧ looking=false ∧ k.Fits true true
  | locked,looking,giveUp k => locked=true ∧ looking=true ∧ k.Quits ∧ k.Fits true false
  | locked,looking,dropLoad k => locked=false ∧ looking=true ∧ k.Fits false false
  | _,_,_ => False

/-- Inside the loop that waits for `IN_LOOK`, with what the thread knows of the two flags. -/
def Runs (look lookWait locked looking : Bool) : Code → Prop
  | wait _ k => locked=true ∧ looking=false ∧ look=true ∧ k.Fits true true
  | take k => locked=true ∧ looking=false ∧ look=false ∧ k.Fits true true
  | gap k | asleep _ k => locked=false ∧ looking=false ∧ lookWait=true ∧ k.Fits true true
  | woken _ k => locked=false ∧ looking=false ∧ k.Fits true true
  | k => k.Fits locked looking

@[simp] theorem sections_fits (n : ℕ) (looking : Bool) (k : Code) :
    (sections n k).Fits false looking ↔ k.Fits false looking := by
  induction n with
  | zero => rfl
  | succ n ih => simp [sections,Fits,ih]

@[simp] theorem breaks_fits (n : ℕ) (looking : Bool) (k : Code) :
    (breaks n k).Fits true looking ↔ k.Fits true looking := by
  induction n with
  | zero => rfl
  | succ n ih => simp [breaks,Fits,ih]

@[simp] theorem readdirDone_fits (havelook : Bool) : (readdirDone havelook).Fits true havelook := by
  cases havelook <;> simp [readdirDone,leave,Fits,Quits]

@[simp] theorem readdirDone_quits : (readdirDone false).Quits := trivial

end Code

theorem Fn.code_fits (f : Fn) (n : ℕ) : (f.code n).Fits false false := by
  cases f <;>
    simp [code,Code.lookup,Code.readdir,Code.readdirPlain,Code.direnter,Code.direnterSlot,
      Code.dirremove,Code.dirrewriteNolock,Code.rmdir,Code.leave,Code.Fits,Code.Quits]

/-- Between setting `IN_LOOKWAIT` and sleeping, with the lock already released. -/
def Code.IsGap : Code → Bool
  | gap _ => true
  | _ => false

/-- `IN_LOOK` is never given up without the inode lock, nor while a thread has released it to sleep
and does not sleep yet. -/
def Code.Safe (s : State τ) : Code → Prop
  | dropLoad _ => False
  | giveUp _ => ∀ u,(s.code u).IsGap=false
  | _ => True

instance [Fintype τ] (s : State τ) : DecidablePred (Code.Safe s) := fun k => by
  cases k <;> unfold Code.Safe <;> infer_instance

def NoLostWakeup (s : State τ) (x : Act τ) : Prop := (s.code x.thread).Safe s

instance [Fintype τ] (s : State τ) (x : Act τ) : Decidable (NoLostWakeup s x) :=
  inferInstanceAs (Decidable ((s.code x.thread).Safe s))

structure Guarded (s : State τ) : Prop where
  runs : ∀ t,(s.code t).Runs s.look s.lookWait (decide (s.lock=some t)) (s.looking t)
  one : ∀ t u,s.looking t=true → s.looking u=true → t=u
  flag : s.look=true ↔ ∃ t,s.looking t=true
  waited : s.lookWait=true → s.look=true

namespace Code

variable {look lookWait locked looking : Bool} {k : Code}

theorem Fits.runs (h : k.Fits locked looking) : k.Runs look lookWait locked looking := by
  cases k <;> first | exact h | exact h.elim

theorem Runs.unlocked (h : k.Runs look lookWait false looking) (look' : Bool) :
    k.Runs look' lookWait false looking := by
  cases k <;> first | exact h | cases h.1

theorem Runs.waited (h : k.Runs look lookWait locked looking) :
    k.Runs look true locked looking := by
  cases k <;> first | exact h | exact ⟨h.1,h.2.1,rfl,h.2.2.2⟩

theorem Runs.woken (h : k.Runs look lookWait false looking) (hg : k.IsGap=false) (w : Bool) :
    k.roused.Runs look w false looking := by
  cases k <;> first | exact h | exact ⟨h.1,h.2.1,h.2.2.2⟩ | cases hg

theorem Runs.idle (h : k.Runs look false locked looking) (w : Bool) :
    k.Runs look w locked looking := by
  cases k <;> first | exact h | cases h.2.2.1

end Code

variable (s : State τ)

@[simp] theorem State.goto_self (t : τ) (k : Code) : (s.goto t k).code t=k :=
  Function.update_self ..

theorem State.goto_other {t u : τ} (k : Code) (h : u≠t) : (s.goto t k).code u=s.code u :=
  Function.update_of_ne h ..

omit [DecidableEq τ] in
/-- `IWAKE` leaves `IN_LOOKWAIT` clear, and wakes whoever sleeps. -/
theorem State.iwake_fields : s.iwake.lock=s.lock ∧ s.iwake.look=s.look ∧ s.iwake.lookWait=false ∧
      (∀ u,s.iwake.code u=(s.code u).roused ∨ (s.lookWait=false ∧ s.iwake.code u=s.code u)) ∧
      s.iwake.looking=s.looking := by
  unfold State.iwake
  cases hw : s.lookWait with
  | true => exact ⟨rfl,rfl,rfl,fun _ => .inl rfl,rfl⟩
  | false => exact ⟨rfl,rfl,hw,fun _ => .inr ⟨rfl,rfl⟩,rfl⟩

def Step (s : State τ) (t : τ) (s' : State τ) : Prop :=
  (∃ f n,s.next (.call t f n)=some s') ∨ (s.code t).Safe s ∧ ∃ b,s.run t b=some s'

theorem step_of_next {s s' : State τ} {x : Act τ} (hok : NoLostWakeup s x)
    (hn : s.next x=some s') : Step s x.thread s' := by
  cases x with
  | run t b => exact .inr ⟨hok,b,hn⟩
  | call t f n => exact .inl ⟨f,n,hn⟩

namespace Guarded

variable {s s' : State τ} {t : τ} {k : Code}

section

variable (h : Guarded s)

include h

theorem locked (hl : s.lock=some t) : (s.code t).Runs s.look s.lookWait true (s.looking t) := by
  have hr := h.runs t
  rwa [hl,decide_eq_true rfl] at hr

theorem unlocked (hl : s.lock≠some t) : (s.code t).Runs s.look s.lookWait false (s.looking t) := by
  have hr := h.runs t
  rwa [decide_eq_false hl] at hr

theorem go (l : Option τ) (hl : ∀ u,u≠t → (l=some u ↔ s.lock=some u))
    (hk : k.Runs s.look s.lookWait (decide (l=some t)) (s.looking t)) :
    Guarded ({ s with lock := l }.goto t k) := by
  refine ⟨fun u => ?_,h.one,h.flag,h.waited⟩
  by_cases hu : u=t
  · rw [hu,State.goto_self]
    exact hk
  · rw [State.goto_other _ _ hu]
    have hr := h.runs u
    rwa [← decide_eq_decide.mpr (hl u hu)] at hr

/-- `dp->i_flag |= IN_LOOKWAIT` and the sleep that releases the lock. -/
theorem wait_step (hl : s.lock=some t) (hlook : s.look=true)
    (hk : k.Runs s.look true false (s.looking t)) :
    Guarded ({ s with lookWait := true, lock := none }.goto t k) := by
  have hf : Guarded { s with lookWait := true } :=
    ⟨fun u => (h.runs u).waited,h.one,h.flag,fun _ => hlook⟩
  refine hf.go none (fun u hu => ?_) (by simpa using hk)
  simp [hl,hu.symm]

theorem take_step (hl : s.lock=some t) (hlook : s.look=false) (hk : k.Fits true true) :
    Guarded (({ s with look := true }.setLooking t true).goto t k) := by
  have hfree (u : τ) : s.looking u=false := by
    by_contra hu
    rw [h.flag.mpr ⟨u,by simpa using hu⟩] at hlook
    cases hlook
  have hown (u : τ) : Function.update s.looking t true u=true ↔ u=t := by
    by_cases hu : u=t <;> simp [hu,hfree]
  refine ⟨fun u => ?_,fun u v hu hv => ?_,⟨fun _ => ⟨t,(hown t).mpr rfl⟩,fun _ => rfl⟩,fun _ => rfl⟩
  · by_cases hu : u=t
    · subst hu
      simpa [State.goto,State.setLooking,hl] using hk.runs
    · have hne : s.lock≠some u := by simpa [hl] using Ne.symm hu
      simpa [State.goto,State.setLooking,hu,hne] using (h.unlocked hne).unlocked true
  · exact ((hown u).mp hu).trans ((hown v).mp hv).symm

/-- `dp->i_flag &= ~IN_LOOK; IWAKE(..)` under the inode lock. -/
theorem giveUp_step (hl : s.lock=some t) (ht : s.looking t=true)
    (hk : k.Fits true false) (hgap : ∀ u,(s.code u).IsGap=false) :
    Guarded ((({ s with look := false }.setLooking t false).iwake).goto t k) := by
  have hnone (u : τ) : Function.update s.looking t false u=false := by
    by_cases hu : u=t
    · simp [hu]
    · rw [Function.update_of_ne hu]
      by_contra hlu
      exact hu (h.one u t (by simpa using hlu) ht)
  obtain ⟨hlock,hlook,hwait,hcode,hlooking⟩ :=
    ({ s with look := false }.setLooking t false).iwake_fields
  generalize ({ s with look := false }.setLooking t false).iwake=s1 at *
  have hfree (u : τ) : s1.looking u=false := (congrFun hlooking u).trans (hnone u)
  refine ⟨fun u => ?_,fun u v hu => ?_,?_,fun hw => ?_⟩
  · by_cases hu : u=t
    · subst hu
      simpa [State.goto,hlock.trans hl,hfree] using hk.runs
    have hne : s.lock≠some u := by simpa [hl] using Ne.symm hu
    have hru := (h.unlocked hne).unlocked false
    rw [← (Function.update_of_ne hu _ _ : Function.update s.looking t false u=_),hnone u] at hru
    have hd : decide (s1.lock=some u)=false := decide_eq_false (by rwa [hlock])
    rw [State.goto_other _ _ hu]
    change (s1.code u).Runs s1.look s1.lookWait (decide (s1.lock=some u)) (s1.looking u)
    rw [hlook,hd,hfree u]
    -- whoever sleeps is woken, and the condition leaves nobody about to sleep
    rcases hcode u with hc | ⟨hw,hc⟩
    · exact hc ▸ hru.woken (hgap u) _
    · have hw' : s.lookWait=false := hw
      rw [hc]
      exact Code.Runs.idle (hw' ▸ hru) _
  · simp [State.goto,hfree] at hu
  · simp [State.goto,hlook,State.setLooking,hfree]
  · exact absurd hw (by simp [State.goto,hwait])

theorem run {b : Bool} (hok : (s.code t).Safe s) (hn : s.run t b=some s') : Guarded s' := by
  have hr := h.runs t
  have hlk (hl : decide (s.lock=some t)=true) : s.lock=some t := of_decide_eq_true hl
  unfold State.run at hn
  cases hc : s.code t with
  | ret | asleep => simp [hc] at hn
  | lock k =>
    simp only [hc,Option.ite_none_right_eq_some,Option.some.injEq] at hn hr
    obtain ⟨hl,rfl⟩ := hn
    exact h.go (some t) (fun u hu => by simp [hl,hu.symm]) (by simpa using hr.2.runs)
  | unlock k =>
    simp only [hc,Option.some.injEq] at hn hr
    subst hn
    exact h.go none (fun u hu => by simp [hlk hr.1,hu.symm]) (by simpa using hr.2.runs)
  | choice a c =>
    simp only [hc,Option.some.injEq] at hn hr
    subst hn
    refine h.go s.lock (fun _ _ => Iff.rfl) ?_
    cases b with
    | true => exact hr.1.runs
    | false => exact hr.2.runs
  | acquire nolck k =>
    simp only [hc,Option.some.injEq] at hn hr
    subst hn
    refine h.go s.lock (fun _ _ => Iff.rfl) ?_
    cases hl : s.look with
    | _ => exact ⟨hr.1,hr.2.1,rfl,hr.2.2⟩
  | wait nolck k =>
    simp only [hc,Option.some.injEq] at hn hr
    subst hn
    refine h.wait_step (hlk hr.1) hr.2.2.1 ?_
    cases nolck with
    | _ => exact ⟨rfl,hr.2.1,rfl,hr.2.2.2⟩
  | gap k =>
    simp only [hc,Option.some.injEq] at hn hr
    subst hn
    exact h.go s.lock (fun _ _ => Iff.rfl) hr
  | woken nolck k =>
    simp only [hc,Option.ite_none_right_eq_some,Option.some.injEq] at hn hr
    obtain ⟨hl,rfl⟩ := hn
    exact h.go (some t) (fun u hu => by simp [hl,hu.symm]) ⟨by simp,hr.2⟩
  | take k =>
    simp only [hc,Option.some.injEq] at hn hr
    subst hn
    exact h.take_step (hlk hr.1) hr.2.2.1 hr.2.2.2
  | giveUp k =>
    simp only [hc,Option.some.injEq] at hn hr hok
    subst hn
    exact h.giveUp_step (hlk hr.1) hr.2.1 hr.2.2.2 hok
  | dropLoad k =>
    rw [hc] at hok
    exact hok.elim
  | dropStore | wakeTest | wakeLoad | wakeStore | wakeup =>
    rw [hc] at hr
    exact hr.elim

theorem step (hs : Step s t s') : Guarded s' := by
  rcases hs with ⟨f,n,hn⟩ | ⟨hok,b,hn⟩
  · simp only [State.next,Option.ite_none_right_eq_some,Option.some.injEq] at hn
    obtain ⟨hc,rfl⟩ := hn
    have hr := h.runs t
    rw [hc] at hr
    refine h.go s.lock (fun _ _ => Iff.rfl) ?_
    rw [hr.1,hr.2]
    exact (f.code_fits n).runs
  · exact h.run hok hn

end

end Guarded

theorem guarded_of_init (s : State τ) (h : (lookMachine τ).init s) : Guarded s := by
  obtain ⟨hl,hk,hw,hc,hn⟩ := h
  refine ⟨fun t => ?_,fun t u ht => ?_,?_,fun h => ?_⟩
  · rw [hc t,hl,hn t]
    exact ⟨by simp,rfl⟩
  · simp [hn] at ht
  · simp [hk,hn]
  · simp [hw] at h

theorem guarded_of_reach {s : State τ} (h : (lookMachine τ).Reach NoLostWakeup s) : Guarded s :=
  h.invariant guarded_of_init (fun _ _ _ hg hok hn => hg.step (step_of_next hok hn))

end Ext2fsX.Look
