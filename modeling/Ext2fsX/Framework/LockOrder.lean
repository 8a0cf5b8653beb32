import Ext2fsX.Framework.Machine
import Mathlib.Data.Finset.Max

namespace Ext2fsX.Framework

/-- What a call does to mutexes. The answers to `ask` stand for everything else the code branches
on. -/
inductive LockProg (κ ρ : Type) where
  | ret (r : ρ)
  | acquire (m : κ) (k : LockProg κ ρ)
  | release (m : κ) (k : LockProg κ ρ)
  | ask (k : ℕ → LockProg κ ρ)

namespace LockProg

section Syntax

variable {κ ρ π : Type}

def andThen : LockProg κ ρ → (ρ → LockProg κ π) → LockProg κ π
  | ret r,f => f r
  | acquire m k,f => acquire m (k.andThen f)
  | release m k,f => release m (k.andThen f)
  | ask k,f => ask (fun n => (k n).andThen f)

instance : Monad (LockProg κ) where
  pure := ret
  bind := andThen

def lock (m : κ) : LockProg κ Unit := acquire m (ret ())

def unlock (m : κ) : LockProg κ Unit := release m (ret ())

def choose : LockProg κ ℕ := ask ret

def branch : LockProg κ Bool := ask (fun n => ret (decide (n≠0)))

def times (body : LockProg κ Unit) : ℕ → LockProg κ Unit
  | 0 => pure ()
  | n+1 => body >>= fun _ => times body n

def loop (body : LockProg κ Unit) : LockProg κ Unit := choose >>= times body

end Syntax

variable {κ ρ π : Type} [LinearOrder κ]

/-- Whatever the answers: each mutex is above all that are held when it is acquired, and `Q` holds
in the end. -/
def wp : LockProg κ ρ → (ρ → Finset κ → Prop) → Finset κ → Prop
  | ret r,Q,held => Q r held
  | acquire m k,Q,held => (∀ x∈held,x < m) ∧ wp k Q (insert m held)
  | release m k,Q,held => wp k Q (held.erase m)
  | ask k,Q,held => ∀ n,wp (k n) Q held

def Increasing (p : LockProg κ ρ) : Prop := p.wp (fun _ _ => True) ∅

/-- A call that acquires in strictly increasing order and holds nothing when it is done. -/
def Ordered (p : LockProg κ ρ) : Prop := p.wp (fun _ held => held=∅) ∅

variable {Q R : ρ → Finset κ → Prop} {held : Finset κ}

@[simp] theorem wp_pure (r : ρ) : wp (pure r : LockProg κ ρ) Q held ↔ Q r held := Iff.rfl

@[simp] theorem wp_bind (p : LockProg κ ρ) (f : ρ → LockProg κ π) (S : π → Finset κ → Prop) :
    wp (p >>= f) S held ↔ wp p (fun r h => wp (f r) S h) held := by
  change wp (p.andThen f) S held ↔ _
  induction p generalizing held with
  | ret r => exact Iff.rfl
  | acquire m k ih => simp only [andThen,wp,ih]
  | release m k ih => simp only [andThen,wp,ih]
  | ask k ih => simp only [andThen,wp,ih]

@[simp] theorem wp_lock (m : κ) (S : Unit → Finset κ → Prop) :
    wp (lock m) S held ↔ (∀ x∈held,x < m) ∧ S () (insert m held) := Iff.rfl

@[simp] theorem wp_unlock (m : κ) (S : Unit → Finset κ → Prop) :
    wp (unlock m) S held ↔ S () (held.erase m) := Iff.rfl

@[simp] theorem wp_branch (S : Bool → Finset κ → Prop) :
    wp (branch : LockProg κ Bool) S held ↔ S true held ∧ S false held := by
  constructor
  · intro h
    exact ⟨h 1,h 0⟩
  · rintro ⟨ht,hf⟩ n
    by_cases hn : n=0
    · subst hn
      exact hf
    · simpa [wp,hn] using ht

theorem wp_mono (p : LockProg κ ρ) (h : ∀ r g,Q r g → R r g) (hq : wp p Q held) : wp p R held := by
  induction p generalizing held with
  | ret r => exact h r held hq
  | acquire m k ih => exact ⟨hq.1,ih hq.2⟩
  | release m k ih => exact ih hq
  | ask k ih => exact fun n => ih n (hq n)

variable (body : LockProg κ Unit)

variable (S : Unit → Finset κ → Prop)

/-- The rule for loops: the mutexes held are the same after each pass. -/
theorem wp_loop
    (hb : wp body (fun _ h => h=held) held) (hs : S () held) : wp (loop body) S held := by
  have htimes (n : ℕ) : wp (times body n) (fun _ h => h=held) held := by
    induction n with
    | zero => rfl
    | succ n ih =>
      unfold times
      rw [wp_bind]
      apply wp_mono body _ hb
      rintro - h rfl
      exact ih
  intro n
  apply wp_mono _ _ (htimes n)
  rintro ⟨⟩ h rfl
  exact hs

/-- A loop may make no pass. -/
theorem wp_loop_zero (h : wp (loop body) S held) : S () held := by
  exact h 0

end LockProg

section Threads

open LockProg
open Function (update update_of_ne)

variable {κ τ : Type} [LinearOrder κ] [DecidableEq τ]

/-- Threads that run lock programs; `held t` repeats what `owner` says of thread `t`. -/
structure Threads (κ τ : Type) where
  prog : τ → LockProg κ Unit
  owner : κ → Option τ
  held : τ → Finset κ

inductive ThreadAct (γ τ : Type) where
  | start (t : τ) (c : γ)
  | go (t : τ)
  | answer (t : τ) (n : ℕ)

variable {γ : Type} (run : γ → LockProg κ Unit)

namespace Threads

def set (s : Threads κ τ) (t : τ) (p : LockProg κ Unit) : Threads κ τ :=
  { s with prog := update s.prog t p }

/-- A thread that waits for a mutex has no step, nor has one that releases a mutex it does not own.
-/
def next (x : ThreadAct γ τ) (s : Threads κ τ) : Option (Threads κ τ) :=
  match x with
  | .start t c =>
    match s.prog t with
    | .ret _ => some (s.set t (run c))
    | _ => none
  | .go t =>
    match s.prog t with
    | .acquire m k =>
      if s.owner m=none then
        some ({ s with
          owner := update s.owner m (some t)
          held := update s.held t (insert m (s.held t)) }.set t k)
      else none
    | .release m k =>
      if s.owner m=some t then
        some ({ s with
          owner := update s.owner m none
          held := update s.held t ((s.held t).erase m) }.set t k)
      else none
    | _ => none
  | .answer t n =>
    match s.prog t with
    | .ask k => some (s.set t (k n))
    | _ => none

/-- A set of threads each of which waits for a mutex that one of them owns. -/
def Deadlock (s : Threads κ τ) : Prop :=
  ∃ D : Finset τ,D.Nonempty ∧
    ∀ t∈D,∃ m k,s.prog t=.acquire m k ∧ ∃ u∈D,s.owner m=some u

end Threads

def threadMachine : Machine (Threads κ τ) (ThreadAct γ τ) where
  init s := (∀ t,s.prog t=.ret ()) ∧ (∀ m,s.owner m=none) ∧ ∀ t,s.held t=∅
  next := Threads.next run

def StartsOrdered (_ : Threads κ τ) : ThreadAct γ τ → Prop
  | .start _ c => Ordered (run c)
  | _ => True

/-- What is left of each call goes on in order from the mutexes its thread owns. -/
structure Disciplined (s : Threads κ τ) : Prop where
  owns : ∀ m t,s.owner m=some t ↔ m∈s.held t
  ordered : ∀ t,(s.prog t).wp (fun _ held => held=∅) (s.held t)

namespace Disciplined

variable {s : Threads κ τ}

section

variable (h : Disciplined s)

include h

theorem set (t : τ) (p : LockProg κ Unit)
    (hp : p.wp (fun _ held => held=∅) (s.held t)) : Disciplined (s.set t p) := by
  refine ⟨h.owns,fun u => ?_⟩
  by_cases hu : u=t
  · subst hu
    simpa [Threads.set] using hp
  · simpa [Threads.set,update_of_ne hu] using h.ordered u

theorem change (t : τ) (m : κ) (k : LockProg κ Unit) (o : Option τ) (held : Finset κ)
    (hm : ∀ u,o=some u ↔ m∈update s.held t held u) (hrest : ∀ x,x≠m → (x∈held ↔ x∈s.held t))
    (hk : k.wp (fun _ held => held=∅) held) : Disciplined ({ s with
      owner := update s.owner m o
      held := update s.held t held }.set t k) := by
  refine ⟨fun x u => ?_,fun u => ?_⟩
  · by_cases hx : x=m
    · subst hx
      simpa [Threads.set] using hm u
    · by_cases hu : u=t
      · subst hu
        simp [Threads.set,update_of_ne hx,hrest x hx,h.owns]
      · simp [Threads.set,update_of_ne hx,update_of_ne hu,h.owns]
  · by_cases hu : u=t
    · subst hu
      simpa [Threads.set] using hk
    · simpa [Threads.set,update_of_ne hu] using h.ordered u

theorem acquire (t : τ) (m : κ) (k : LockProg κ Unit)
    (hp : s.prog t=.acquire m k) (hfree : s.owner m=none) :
    Disciplined ({ s with
      owner := update s.owner m (some t)
      held := update s.held t (insert m (s.held t)) }.set t k) := by
  have hk := h.ordered t
  rw [hp] at hk
  refine h.change t m k _ _ (fun u => ?_) (fun x hx => by simp [hx]) hk.2
  by_cases hu : u=t
  · simp [hu]
  · simp [update_of_ne hu,Ne.symm hu,← h.owns,hfree]

theorem release (t : τ) (m : κ) (k : LockProg κ Unit)
    (hp : s.prog t=.release m k) (hmine : s.owner m=some t) :
    Disciplined ({ s with
      owner := update s.owner m none
      held := update s.held t ((s.held t).erase m) }.set t k) := by
  have hk := h.ordered t
  rw [hp] at hk
  refine h.change t m k _ _ (fun u => ?_) (fun x hx => by simp [hx]) (by simpa [wp] using hk)
  by_cases hu : u=t
  · simp [hu]
  · simp [update_of_ne hu,Ne.symm hu,← h.owns,hmine]

theorem next (x : ThreadAct γ τ) (hok : StartsOrdered run s x)
    {s' : Threads κ τ} (hn : s.next run x=some s') : Disciplined s' := by
  unfold Threads.next at hn
  cases x with
  | start t c =>
    cases hp : s.prog t with
    | ret r =>
      simp only [hp,Option.some.injEq] at hn
      have hdone := h.ordered t
      rw [hp] at hdone
      have hempty : s.held t=∅ := hdone
      refine hn ▸ h.set t (run c) ?_
      rw [hempty]
      exact hok
    | _ => simp [hp] at hn
  | go t =>
    cases hp : s.prog t with
    | acquire m k =>
      simp only [hp,Option.ite_none_right_eq_some,Option.some.injEq] at hn
      exact hn.2 ▸ h.acquire t m k hp hn.1
    | release m k =>
      simp only [hp,Option.ite_none_right_eq_some,Option.some.injEq] at hn
      exact hn.2 ▸ h.release t m k hp hn.1
    | _ => simp [hp] at hn
  | answer t n =>
    cases hp : s.prog t with
    | ask k =>
      simp only [hp,Option.some.injEq] at hn
      have hk := h.ordered t
      rw [hp] at hk
      exact hn ▸ h.set t (k n) (hk n)
    | _ => simp [hp] at hn

omit [DecidableEq τ] in
/-- The highest mutex waited for has an owner that waits for a higher one. -/
theorem not_deadlock : ¬s.Deadlock := by
  rintro ⟨D,⟨t,ht⟩,hD⟩
  -- the mutexes that the threads of the set wait for
  classical
  choose m k hwait using hD
  obtain ⟨⟨u,hu⟩,-,hmax⟩ := D.attach.exists_max_image (fun u => m u.1 u.2)
    ⟨⟨t,ht⟩,Finset.mem_attach _ _⟩
  obtain ⟨v,hv,hown⟩ := (hwait u hu).2
  have hheld := (h.owns _ _).mp hown
  have hord := h.ordered v
  rw [(hwait v hv).1] at hord
  have hlt := hord.1 _ hheld
  exact absurd (hmax ⟨v,hv⟩ (Finset.mem_attach _ _)) (not_le.mpr hlt)

end

end Disciplined

theorem reach_disciplined {s : Threads κ τ} (h : (threadMachine run).Reach (StartsOrdered run) s) : Disciplined s := by
  refine Machine.Reach.invariant (I := Disciplined) ?_ ?_ h
  · intro s hs
    refine ⟨fun m t => ?_,fun t => ?_⟩
    · rw [hs.2.1 m,hs.2.2 t]
      simp
    · rw [hs.1 t,hs.2.2 t]
      rfl
  · intro s s' x hs hok hn
    exact hs.next run x hok hn

end Threads

end Ext2fsX.Framework
