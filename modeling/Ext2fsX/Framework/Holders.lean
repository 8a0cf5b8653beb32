import Mathlib.Data.List.Nodup

namespace Ext2fsX.Framework

variable {τ α : Type*} [DecidableEq τ]

/-- No thing is held twice, by one holder or by two. -/
structure Apart (held : τ → List α) : Prop where
  nodup : ∀ t,(held t).Nodup
  disjoint : ∀ t u x,x∈held t → x∈held u → t=u

def receive (held : τ → List α) (t : τ) (xs : List α) : τ → List α :=
  Function.update held t (held t++xs)

def giveUp [DecidableEq α] (held : τ → List α) (t : τ) (x : α) : τ → List α :=
  Function.update held t ((held t).erase x)

theorem mem_receive (held : τ → List α) (t u : τ) (xs : List α) (x : α) :
    x∈receive held t xs u ↔ x∈held u ∨ (u=t ∧ x∈xs) := by
  unfold receive
  by_cases hu : u=t
  · subst hu
    simp
  · simp [hu]

namespace Apart

variable {held : τ → List α}

omit [DecidableEq τ] in
theorem sublist (h : Apart held) {held' : τ → List α} (hs : ∀ t,(held' t).Sublist (held t)) :
    Apart held' where
  nodup t := (h.nodup t).sublist (hs t)
  disjoint t u x hx hy := h.disjoint t u x ((hs t).subset hx) ((hs u).subset hy)

theorem receive (h : Apart held) (t : τ) (xs : List α) (hx : xs.Nodup) (hn : ∀ x∈xs,∀ u,x∉held u) : Apart (receive held t xs) := by
  constructor
  · intro u
    unfold Framework.receive
    by_cases hu : u=t
    · subst hu
      rw [Function.update_self]
      refine List.nodup_append.mpr ⟨h.nodup u,hx,?_⟩
      intro x hm y hy he
      exact hn y hy u (he ▸ hm)
    · rw [Function.update_of_ne hu]
      exact h.nodup u
  · intro u v x hu hv
    obtain ho | ⟨hut,hm⟩ := (mem_receive held t u xs x).mp hu
    · obtain ho' | ⟨hvt,hm'⟩ := (mem_receive held t v xs x).mp hv
      · exact h.disjoint u v x ho ho'
      · exact absurd ho (hn x hm' u)
    · obtain ho' | ⟨hvt,hm'⟩ := (mem_receive held t v xs x).mp hv
      · exact absurd ho' (hn x hm v)
      · exact hut.trans hvt.symm

variable [DecidableEq α]

theorem giveUp_sublist (held : τ → List α) (t : τ) (x : α) (u : τ) :
    (giveUp held t x u).Sublist (held u) := by
  unfold giveUp
  by_cases hu : u=t
  · subst hu
    rw [Function.update_self]
    exact List.erase_sublist
  · rw [Function.update_of_ne hu]

theorem giveUp (h : Apart held) (t : τ) (x : α) : Apart (giveUp held t x) :=
  h.sublist (giveUp_sublist held t x)

/-- What one holder has given up nobody holds. -/
theorem gone (h : Apart held) (t : τ) (x : α) (hx : x∈held t) (u : τ) :
    x∉Framework.giveUp held t x u := by
  unfold Framework.giveUp
  by_cases hu : u=t
  · subst hu
    rw [Function.update_self]
    exact fun hm => ((h.nodup u).mem_erase_iff.mp hm).1 rfl
  · rw [Function.update_of_ne hu]
    exact fun hm => hu (h.disjoint u t x hm hx)

theorem give (h : Apart held) (t u : τ) (x : α) (hx : x∈held t) :
    Apart (Framework.receive (Framework.giveUp held t x) u [x]) := by
  apply (h.giveUp t x).receive u _ (List.nodup_singleton _)
  intro y hy v
  rw [List.mem_singleton.mp hy]
  exact h.gone t x hx v

theorem mem_give {t u v : τ} {x y : α} (hx : x∈held t)
    (hy : y∈Framework.receive (Framework.giveUp held t x) u [x] v) : ∃ w,y∈held w := by
  obtain ho | ⟨-,ho⟩ := (mem_receive _ _ _ _ _).mp hy
  · exact ⟨v,(giveUp_sublist held t x v).subset ho⟩
  · exact ⟨t,List.mem_singleton.mp ho ▸ hx⟩

end Apart

end Ext2fsX.Framework
