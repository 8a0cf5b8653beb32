import Ext2fsX.Framework.Machine
import Mathlib.Algebra.BigOperators.Group.Finset.Basic
import Mathlib.Data.Nat.Find
import Mathlib.Data.Prod.Lex
import Mathlib.Order.WellFounded

namespace Ext2fsX.Framework

namespace Machine

variable {σ α : Type*}

/-- An infinite run; where no label stands, nobody moves. -/
structure Execution (M : Machine σ α) where
  state : ℕ → σ
  label : ℕ → Option α
  init : M.init (state 0)
  step : ∀ n a,label n=some a → M.next a (state n)=some (state (n+1))
  stutter : ∀ n,label n=none → state (n+1)=state n

def Enabled (M : Machine σ α) (mine : α → Prop) (s : σ) : Prop :=
  ∃ a s',mine a ∧ M.next a s=some s'

namespace Execution

variable {M : Machine σ α} (e : M.Execution) {ok : σ → α → Prop}

def Meets (ok : σ → α → Prop) : Prop := ∀ n a,e.label n=some a → ok (e.state n) a

/-- Weak fairness: steps that stay possible from some time on are taken. -/
def WeakFair (mine : α → Prop) : Prop :=
  ∀ n,(∀ m,n ≤ m → M.Enabled mine (e.state m)) → ∃ m a,n ≤ m ∧ e.label m=some a ∧ mine a

variable {e}

theorem reach (h : e.Meets ok) (n : ℕ) : M.Reach ok (e.state n) := by
  induction n with
  | zero => exact .start e.init
  | succ n ih =>
    cases hl : e.label n with
    | none =>
      rw [e.stutter n hl]
      exact ih
    | some a => exact .step ih (h n a hl) (e.step n a hl)

/-- Nothing changes while no label stands. -/
theorem state_const (n m : ℕ) (hnm : n ≤ m) (h : ∀ k,n≤k → k < m → e.label k=none) :
    e.state m=e.state n := by
  induction m,hnm using Nat.le_induction with
  | base => rfl
  | succ m hm ih =>
    rw [e.stutter m (h m hm (Nat.lt_succ_self m))]
    exact ih (fun k h1 h2 => h k h1 (Nat.lt_succ_of_lt h2))

/-- A run whose every step lowers a well-founded measure takes finitely many steps. -/
theorem quiesces {β : Type*} [Preorder β] [WellFoundedLT β] (rank : σ → β)
    (h : ∀ n a,e.label n=some a → rank (e.state (n+1)) < rank (e.state n)) :
    ∃ n,∀ m,n ≤ m → e.label m=none := by
  suffices hs : ∀ b n,rank (e.state n)=b → ∃ k,∀ m,k ≤ m → e.label m=none from hs _ 0 rfl
  intro b
  induction b using WellFoundedLT.induction with
  | ind b ih =>
    intro n hb
    by_cases hq : ∃ m,n ≤ m ∧ e.label m≠none
    · classical
      obtain ⟨h1,h2⟩ := Nat.find_spec hq
      have hc : e.state (Nat.find hq)=e.state n := by
        refine state_const n _ h1 (fun k hk hlt => ?_)
        by_contra hne
        exact Nat.find_min hq hlt ⟨hk,hne⟩
      obtain ⟨a,ha⟩ := Option.ne_none_iff_exists'.mp h2
      have hlt := h _ a ha
      rw [hc,hb] at hlt
      exact ih _ hlt _ rfl
    · refine ⟨n,fun m hm => ?_⟩
      by_contra hne
      exact hq ⟨m,hm,hne⟩

/-- Where a run has come to rest, what is treated fairly is not possible. -/
theorem WeakFair.disabled {mine : α → Prop} (hf : e.WeakFair mine) {n : ℕ}
    (hq : ∀ m,n ≤ m → e.label m=none) : ¬M.Enabled mine (e.state n) := by
  intro hen
  obtain ⟨m,a,hm,hl,-⟩ := hf n (fun m hm => by
    rw [state_const n m hm (fun k hk _ => hq k hk)]
    exact hen)
  rw [hq m hm] at hl
  cases hl

variable (e)

/-- Some step that `act` allows in this state is possible. -/
def EnabledIn (M : Machine σ α) (act : σ → α → Prop) (s : σ) : Prop :=
  ∃ a s',act s a ∧ M.next a s=some s'

/-- Strong fairness: steps that are possible again and again are taken. -/
def StrongFair (act : σ → α → Prop) : Prop :=
  ∀ n,(∀ m,n ≤ m → ∃ k,m≤k ∧ EnabledIn M act (e.state k)) →
    ∃ m a,n ≤ m ∧ e.label m=some a ∧ act (e.state m) a

/-- From every `P` the run comes to a `Q`. -/
def LeadsTo (P Q : σ → Prop) : Prop := ∀ n,P (e.state n) → ∃ m,n ≤ m ∧ Q (e.state m)

variable {e} {P Q R : σ → Prop}

theorem LeadsTo.trans (hp : e.LeadsTo P Q) (hq : e.LeadsTo Q R) : e.LeadsTo P R := by
  intro n h
  obtain ⟨m,hm,h⟩ := hp n h
  obtain ⟨k,hk,h⟩ := hq m h
  exact ⟨k,hm.trans hk,h⟩

section

variable (hstep : ∀ n a,P (e.state n) → e.label n=some a → P (e.state (n+1)) ∨ Q (e.state (n+1)))

include hstep

/-- What every step keeps or turns into `Q` is kept until `Q` comes. -/
theorem keepsUntil {n m : ℕ} (hnm : n ≤ m) (h : P (e.state n)) :
    P (e.state m) ∨ ∃ k,n≤k ∧ k ≤ m ∧ Q (e.state k) := by
  induction m,hnm using Nat.le_induction with
  | base => exact .inl h
  | succ m hm ih =>
    rcases ih with hp | ⟨k,h1,h2,hq⟩
    · cases hl : e.label m with
      | none =>
        rw [e.stutter m hl]
        exact .inl hp
      | some a =>
        rcases hstep m a hp hl with hp | hq
        · exact .inl hp
        · exact .inr ⟨m+1,Nat.le_succ_of_le hm,le_refl _,hq⟩
    · exact .inr ⟨k,h1,Nat.le_succ_of_le h2,hq⟩

theorem keeps_of_never {n m : ℕ} (hnm : n ≤ m) (h : P (e.state n))
    (hno : ¬∃ m,n ≤ m ∧ Q (e.state m)) : P (e.state m) := by
  rcases keepsUntil hstep hnm h with hp | ⟨k,hk,-,hq⟩
  · exact hp
  · exact absurd ⟨k,hk,hq⟩ hno

/-- A condition under which fairly treated steps stay possible, and which they end. -/
theorem WeakFair.leadsTo {mine : α → Prop} (hf : e.WeakFair mine)
    (hen : ∀ n,P (e.state n) → M.Enabled mine (e.state n))
    (hmine : ∀ n a,P (e.state n) → e.label n=some a → mine a → Q (e.state (n+1))) :
    e.LeadsTo P Q := by
  intro n hp
  by_contra hno
  obtain ⟨m,a,hm,hl,ha⟩ := hf n (fun m hm => hen m (keeps_of_never hstep hm hp hno))
  exact hno ⟨m+1,Nat.le_succ_of_le hm,hmine m a (keeps_of_never hstep hm hp hno) hl ha⟩

/-- A condition under which fairly treated steps are possible again and again. -/
theorem StrongFair.leadsTo {act : σ → α → Prop} (hf : e.StrongFair act)
    (hen : ∀ n,P (e.state n) → ∃ m,n ≤ m ∧ (EnabledIn M act (e.state m) ∨ Q (e.state m)))
    (hact : ∀ n a,P (e.state n) → e.label n=some a → act (e.state n) a → Q (e.state (n+1))) :
    e.LeadsTo P Q := by
  intro n hp
  by_contra hno
  obtain ⟨m,a,hm,hl,ha⟩ := hf n (fun m hm => by
    obtain ⟨k,hk,h | h⟩ := hen m (keeps_of_never hstep hm hp hno)
    · exact ⟨k,hk,h⟩
    · exact absurd ⟨k,hm.trans hk,h⟩ hno)
  exact hno ⟨m+1,Nat.le_succ_of_le hm,hact m a (keeps_of_never hstep hm hp hno) hl ha⟩

end

end Execution

variable (M : Machine σ α)

theorem exec_append (as bs : List α) (s : σ) :
    M.exec (as++bs) s=(M.exec as s).bind (M.exec bs) := by
  induction as generalizing s with
  | nil => rfl
  | cons a as ih =>
    simp only [List.cons_append,exec]
    cases M.next a s with
    | none => rfl
    | some t => exact ih t

theorem exec_take_isSome {as : List α} {s s' : σ} (h : M.exec as s=some s')
    (n : ℕ) : ∃ t,M.exec (as.take n) s=some t := by
  rw [← List.take_append_drop n as,exec_append] at h
  obtain ⟨t,ht,-⟩ := Option.bind_eq_some_iff.mp h
  exact ⟨t,ht⟩

/-- The run that follows a schedule and then rests. -/
def Execution.ofExec (M : Machine σ α) (as : List α) (s s' : σ) (hi : M.init s)
    (h : M.exec as s=some s') : M.Execution where
  state n := (M.exec (as.take n) s).getD s'
  label n := as[n]?
  init := by simpa [exec] using hi
  step n a hl := by
    obtain ⟨t,ht⟩ := M.exec_take_isSome h n
    obtain ⟨u,hu⟩ := M.exec_take_isSome h (n+1)
    have hs : as.take (n+1)=as.take n++[a] := by
      rw [List.take_add_one,hl]
      rfl
    have hn := hu
    rw [hs,exec_append,ht] at hn
    simp only [Option.bind_some,exec] at hn
    rw [ht,hu]
    cases ha : M.next a t with
    | none => simp [ha] at hn
    | some v =>
      rw [ha] at hn
      have hv : v=u := by simpa [exec] using hn
      simp [ha,hv]
  stutter n hl := by
    have hle : as.length≤n := by simpa using hl
    rw [List.take_of_length_le hle,List.take_of_length_le (Nat.le_succ_of_le hle)]

variable (as : List α) (s s' : σ)

theorem Execution.ofExec_rest (hi : M.init s) (h : M.exec as s=some s') (n : ℕ) (hn : as.length≤n) :
    (Execution.ofExec M as s s' hi h).state n=s' := by
  simp [ofExec,List.take_of_length_le hn,h]

theorem Meets.at {M : Machine σ α} {ok : σ → α → Prop} {as : List α} {s t : σ} (h : M.Meets ok as s)
    (n : ℕ) (a : α) (ht : M.exec (as.take n) s=some t) (ha : as[n]?=some a) : ok t a := by
  induction as generalizing s n with
  | nil => simp at ha
  | cons b as ih =>
    cases n with
    | zero =>
      have hs : s=t := by simpa [exec] using ht
      have hb : b=a := by simpa using ha
      exact hs ▸ hb ▸ h.1
    | succ n =>
      obtain ⟨u,hu,ht⟩ := Option.bind_eq_some_iff.mp (show (M.next b s).bind _=some t from ht)
      exact ih (h.2 u hu) n ht (by simpa using ha)

theorem Execution.ofExec_meets {ok : σ → α → Prop}
    (hi : M.init s) (h : M.exec as s=some s') (hm : M.Meets ok as s) :
    (Execution.ofExec M as s s' hi h).Meets ok := by
  intro n a ha
  obtain ⟨t,ht⟩ := M.exec_take_isSome h n
  simp only [ofExec,ht,Option.getD_some]
  exact hm.at n a ht ha

/-- A run that rests treats fairly what is not possible where it rests. -/
theorem Execution.ofExec_weakFair (hi : M.init s)
    (h : M.exec as s=some s') {mine : α → Prop} (hd : ¬M.Enabled mine s') :
    (Execution.ofExec M as s s' hi h).WeakFair mine := by
  intro n hen
  have he := hen (max n as.length) (le_max_left _ _)
  rw [Execution.ofExec_rest M as s s' hi h _ (le_max_right _ _)] at he
  exact absurd he hd

theorem Execution.ofExec_strongFair (hi : M.init s)
    (h : M.exec as s=some s') {act : σ → α → Prop} (hd : ¬EnabledIn M act s') :
    (Execution.ofExec M as s s' hi h).StrongFair act := by
  intro n hen
  obtain ⟨k,hk,he⟩ := hen (max n as.length) (le_max_left _ _)
  rw [Execution.ofExec_rest M as s s' hi h _ ((le_max_right _ _).trans hk)] at he
  exact absurd he hd

end Machine

theorem sum_change {τ : Type*} [DecidableEq τ] (F : Finset τ) (f g : τ → ℕ) (t : τ) (ht : t∈F)
    (h : ∀ u,u≠t → g u=f u) : (∑ u ∈ F,g u)+f t=(∑ u ∈ F,f u)+g t := by
  have hrest : ∑ u ∈ F.erase t,g u=∑ u ∈ F.erase t,f u :=
    Finset.sum_congr rfl (fun u hu => h u (Finset.ne_of_mem_erase hu))
  rw [← Finset.add_sum_erase F g ht,← Finset.add_sum_erase F f ht,hrest]
  omega

end Ext2fsX.Framework
