import Mathlib.Data.Nat.Notation

namespace Ext2fsX.Framework

/-- A label names the acting thread and fixes every choice of the environment, so it has at most one
successor. -/
structure Machine (σ α : Type*) where
  init : σ → Prop
  next : α → σ → Option σ

namespace Machine

variable {σ α : Type*} (M : Machine σ α)

/-- A finite schedule; `none` when one of its steps is not enabled. -/
def exec : List α → σ → Option σ
  | [],s => some s
  | a::as,s => (M.next a s).bind (exec as)

/-- The states of the runs whose every step meets `ok` in the state before it. -/
inductive Reach (ok : σ → α → Prop) : σ → Prop
  | start {s : σ} : M.init s → Reach ok s
  | step {s s' : σ} {a : α} : Reach ok s → ok s a → M.next a s=some s' → Reach ok s'

def anyStep : σ → α → Prop := fun _ _ => True

instance (s : σ) (a : α) : Decidable (anyStep s a) := .isTrue trivial

variable {M}

variable {ok : σ → α → Prop}

theorem Reach.invariant {I : σ → Prop} (hi : ∀ s,M.init s → I s)
    (hs : ∀ s s' a,I s → ok s a → M.next a s=some s' → I s') {s : σ} (h : M.Reach ok s) : I s := by
  induction h with
  | start h0 => exact hi _ h0
  | step _ hok hn ih => exact hs _ _ _ ih hok hn

theorem Reach.mono {ok ok' : σ → α → Prop} (hok : ∀ s a,ok s a → ok' s a) {s : σ}
    (h : M.Reach ok s) : M.Reach ok' s := by
  induction h with
  | start h0 => exact .start h0
  | step _ ho hn ih => exact .step ih (hok _ _ ho) hn

variable (M)

def Meets (ok : σ → α → Prop) : List α → σ → Prop
  | [],_ => True
  | a::as,s => ok s a ∧ ∀ s'∈M.next a s,Meets ok as s'

instance decidableMeets (ok : σ → α → Prop) [∀ s a,Decidable (ok s a)] :
    (as : List α) → (s : σ) → Decidable (M.Meets ok as s)
  | [],_ => .isTrue trivial
  | a::as,s =>
    have := decidableMeets ok as
    inferInstanceAs (Decidable (ok s a ∧ ∀ s'∈M.next a s,M.Meets ok as s'))

theorem meets_anyStep (as : List α) (s : σ) : M.Meets anyStep as s := by
  induction as generalizing s with
  | nil => trivial
  | cons a as ih => exact ⟨trivial,fun s' _ => ih s'⟩

variable {M}

theorem Reach.exec {s s' : σ} {as : List α} (h : M.Reach ok s)
    (hm : M.Meets ok as s) (he : M.exec as s=some s') : M.Reach ok s' := by
  induction as generalizing s with
  | nil =>
    have hs : s=s' := by simpa [Machine.exec] using he
    exact hs ▸ h
  | cons a as ih =>
    obtain ⟨t,ht,he⟩ := Option.bind_eq_some_iff.mp he
    exact ih (.step h hm.1 ht) (hm.2 t ht) he

section History

variable {γ : Type*} (M)

/-- `note` adds what the step from one state to the next is to be remembered for. -/
def watch (start : γ) (note : α → σ → σ → γ → γ) : Machine (σ × γ) α where
  init p := M.init p.1 ∧ p.2=start
  next a p := (M.next a p.1).map (fun s => (s,note a p.1 s p.2))

variable {M}

/-- The history takes no part in the runs. -/
theorem Reach.unwatch {start : γ} {note : α → σ → σ → γ → γ} {ok : σ × γ → α → Prop} {p : σ × γ}
    (h : (M.watch start note).Reach ok p) : M.Reach anyStep p.1 := by
  induction h with
  | start h0 => exact .start h0.1
  | step _ _ hn ih =>
    obtain ⟨s,hs,he⟩ := Option.map_eq_some_iff.mp hn
    rw [← he]
    exact .step ih trivial hs

/-- A fact about the state and the history of every run, from what holds in every state. -/
theorem Reach.watched {start : γ} {note : α → σ → σ → γ → γ} {ok : σ × γ → α → Prop} {I : σ → Prop}
    {J : γ → Prop} (hI : ∀ s,M.Reach anyStep s → I s) (h0 : J start)
    (hstep : ∀ s s' c a,I s → J c → ok (s,c) a → M.next a s=some s' → J (note a s s' c)) {p : σ × γ}
    (h : (M.watch start note).Reach ok p) : J p.2 := by
  induction h with
  | start hs => exact hs.2 ▸ h0
  | step hr hok hn ih =>
    obtain ⟨s,hs,he⟩ := Option.map_eq_some_iff.mp hn
    rw [← he]
    exact hstep _ _ _ _ (hI _ hr.unwatch) ih hok hs

end History

end Machine

end Ext2fsX.Framework
