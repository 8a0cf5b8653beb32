import Ext2fsX.Alloc.Regions
import Ext2fsX.Blocks.Tree
import Ext2fsX.Framework.Ownership

namespace Ext2fsX.Alloc

open Framework
open Blocks (Geometry)

inductive Holder where
  | slot (p : Slot)
  | window
  | thread (t : ℕ)

/-- The blocks that a thread has taken and not yet stored, or given back. -/
def Pc.Carries : Pc → ℕ → Prop
  | .freeing _ blk n,b => blk≤b ∧ b<blk+n
  | .obtained _ bno ibn icount,b => b=bno ∨ (ibn≤b ∧ b < ibn+icount)
  | .filling _ b',b => b=b'
  | .filled _ b',b => b=b'
  | _,_ => False

variable (g : Geometry)

def Holds (s : State) : Holder → ℕ → Prop
  | .slot p,b => Reaches g s p b
  | .window,b => InWindow s b
  | .thread t,b => (s.th t).Carries b

section Threads

variable (tree : Slot → ℕ) (owner : Slot → Option ℕ) (t : ℕ)

/-- The indirect block with the pointer is in the file, and the thread holds its buffer. -/
structure Placed (w : Work) : Prop where
  level : level g w.slot=some w.rest.length
  bound : ∀ o∈w.rest,o<g.nindir
  live : Live tree w.slot.tail
  owner : w.slot.tail≠[] → owner w.slot.tail=some t
  direct : w.pageout=true → w.slot.tail=[] ∧ w.rest=[]

structure Pending (w : Work) : Prop extends Placed g tree owner t w where
  empty : w.slot.tail≠[] → tree w.slot=0

/-- A thread that is to go on below a pointer. -/
structure Below (w : Work) : Prop where
  level : level g w.slot=some w.rest.length
  bound : ∀ o∈w.rest,o<g.nindir
  live : Live tree w.slot
  more : w.rest≠[]
  pageout : w.pageout=false

/-- What a thread can rely on when it does not have the lock. -/
def Good : Pc → Prop
  | .idle => True
  | .entered w => Placed g tree owner t w ∧ w.slot.tail=[]
  | .found w => Pending g tree owner t w
  | .freeing w _ _ => Pending g tree owner t w
  | .newing w => Pending g tree owner t w
  | .obtained w bno ibn _ => Pending g tree owner t w ∧ ibn=bno+1 ∧ 0<bno ∧ bno<2^31
  | .filling w b => Pending g tree owner t w ∧ 0<b
  | .filled w b => Pending g tree owner t w ∧ 0<b ∧
      (w.rest≠[] → tree w.slot=0 → ∀ o,tree (o::w.slot)=0)
  | .restoring w b => Live tree w.slot ∧ tree w.slot=b ∧ w.aliased=false ∧ w.slot≠[]
  | .reading w => Below g tree w
  | .holding w => Placed g tree owner t w ∧ w.slot.tail≠[]
  | .writing w => Placed g tree owner t w ∧ w.slot.tail≠[] ∧ tree w.slot≠0
  | .failing _ => False

end Threads

structure Inv (s : State) : Prop where
  owned : Owned (Holds g s) (fun b => s.used b=true)
  bound : ∀ b,s.used b=true → 0<b ∧ b<2^31
  good : ∀ t,Good g (s.ptr false) (s.owner false) t (s.th t)

/-- What a step of thread `t` does to the others. -/
structure Frame (s s' : State) (t : ℕ) : Prop where
  th : ∀ u,u≠t → s'.th u=s.th u
  owner : ∀ q u,q≠[] → u≠t → s.owner false q=some u → s'.owner false q=some u
  kept : ∀ o q,Live (s.ptr false) (o::q) → s'.ptr false (o::q)=s.ptr false (o::q)
  wrote : ∀ o q,s'.ptr false (o::q)=s.ptr false (o::q) ∨ s'.ptr false (o::q)=0 ∨
    (Live (s.ptr false) q ∧ (q≠[] → s.owner false q=some t))

variable {g}

theorem level_cons {o o' : ℕ} {q : Slot} {n : ℕ} :
    level g (o::o'::q)=some n ↔ level g (o'::q)=some (n+1) ∧ o<g.nindir := by
  rw [level]
  split
  · next m hm =>
    rw [hm]
    by_cases ho : o<g.nindir
    · simp [ho]
    · simp [ho]
  · next hm =>
    constructor
    · nofun
    · rintro ⟨h,-⟩
      exact absurd h (hm n)
  · nofun

theorem level_closed (o o' : ℕ) (q : Slot) (h : (level g (o::o'::q)).isSome) :
    (level g (o'::q)).isSome := by
  obtain ⟨n,hn⟩ := Option.isSome_iff_exists.mp h
  rw [(level_cons.mp hn).1]
  rfl

theorem level_ne_nil {p : Slot} {n : ℕ} (h : level g p=some n) : p≠[] := by
  rintro rfl
  simp [level] at h

theorem level_split {p : Slot} {n : ℕ} (h : level g p=some n) : ∃ i q,p=i::q :=
  List.exists_cons_of_ne_nil (level_ne_nil h)

theorem lbnPath_lt {n : ℕ} (hn : 0<n) (bn levels blockcnt : ℕ) (metalbn : ℤ) :
    ∀ x∈Blocks.lbnPath n bn levels blockcnt metalbn,x.2<n := by
  induction levels generalizing blockcnt metalbn with
  | zero => nofun
  | succ levels ih =>
    intro x hx
    obtain rfl | hx := List.mem_cons.mp hx
    · exact Nat.mod_lt _ hn
    · exact ih _ _ x hx

theorem target_level {lbn k : ℕ} {offs : List ℕ} (h : target g lbn=some (k,offs)) :
    level g [k]=some offs.length ∧ ∀ o∈offs,o<g.nindir := by
  have hpath : ∀ (lvl : ℕ) {bn blockcnt : ℕ} {metalbn : ℤ},lvl<3 →
      some (12+lvl,(Blocks.lbnPath g.nindir bn (lvl+1) blockcnt metalbn).map Prod.snd)=
        some (k,offs) → level g [k]=some offs.length ∧ ∀ o∈offs,o<g.nindir := by
    intro lvl bn blockcnt metalbn hlvl he
    obtain ⟨rfl,rfl⟩ := Prod.mk.inj (Option.some.inj he)
    constructor
    · rw [level,if_pos (by omega),List.length_map,Blocks.lbnPath_length]
      congr 1
      omega
    · intro o ho
      obtain ⟨x,hx,rfl⟩ := List.mem_map.mp ho
      exact lbnPath_lt (Blocks.State.nindir_pos g) _ _ _ _ x hx
  unfold target Blocks.getlbns at h
  by_cases hlt : lbn<12
  · rw [if_pos hlt] at h
    obtain ⟨rfl,rfl⟩ := Prod.mk.inj (Option.some.inj h)
    constructor
    · rw [level,if_pos (by omega)]
      congr 1
      simp only [List.length_nil]
      omega
    · nofun
  · rw [if_neg hlt] at h
    dsimp only at h
    split at h
    · exact hpath 0 (by omega) h
    · split at h
      · exact hpath 1 (by omega) h
      · split at h
        · exact hpath 2 (by omega) h
        · exact absurd h nofun

section Frames

variable {s s' : State} {t u : ℕ} {w : Work}

theorem Frame.live (F : Frame s s' t) {r : Slot} (h : Live (s.ptr false) r) :
    Live (s'.ptr false) r := h.mono F.kept

theorem Placed.frame (h : Placed g (s.ptr false) (s.owner false) u w) (F : Frame s s' t)
    (hu : u≠t) : Placed g (s'.ptr false) (s'.owner false) u w where
  level := h.level
  bound := h.bound
  live := F.live h.live
  owner hq := F.owner _ u hq hu (h.owner hq)
  direct := h.direct

theorem Pending.frame (h : Pending g (s.ptr false) (s.owner false) u w) (F : Frame s s' t)
    (hu : u≠t) : Pending g (s'.ptr false) (s'.owner false) u w where
  toPlaced := h.toPlaced.frame F hu
  empty := by
    intro hq
    obtain ⟨o,q,hs⟩ := level_split h.level
    have hown := h.owner hq
    have h0 := h.empty hq
    rw [hs] at hq hown h0 ⊢
    obtain he | he | ⟨-,he⟩ := F.wrote o q
    · rw [he,h0]
    · exact he
    · exact absurd (Option.some.inj ((he hq).symm.trans hown)) (Ne.symm hu)

theorem Below.frame (h : Below g (s.ptr false) w) (F : Frame s s' t) : Below g (s'.ptr false) w :=
  ⟨h.level,h.bound,F.live h.live,h.more,h.pageout⟩

theorem Frame.ptr_eq (F : Frame s s' t) {p : Slot} (hp : p≠[]) (h : Live (s.ptr false) p) :
    s'.ptr false p=s.ptr false p := by
  obtain ⟨o,q,rfl⟩ := List.exists_cons_of_ne_nil hp
  exact F.kept o q h

theorem Frame.under (F : Frame s s' t) (h : Live (s.ptr false) w.slot.tail) (hs : w.slot≠[])
    (hz : s.ptr false w.slot=0 → ∀ o,s.ptr false (o::w.slot)=0) (h0 : s'.ptr false w.slot=0)
    (o : ℕ) : s'.ptr false (o::w.slot)=0 := by
  obtain ⟨i,q,hiq⟩ := List.exists_cons_of_ne_nil hs
  rw [hiq] at h
  have hdead : ¬Live (s.ptr false) w.slot := by
    intro hl
    rw [F.ptr_eq hs hl] at h0
    rw [hiq] at hl h0
    exact hl.1 h0
  have hs0 : s.ptr false w.slot=0 := by
    by_cases he : s.ptr false w.slot=0
    · exact he
    · rw [hiq] at he hdead
      exact absurd ⟨he,h⟩ hdead
  obtain he | he | ⟨hl,-⟩ := F.wrote o w.slot
  · rw [he,hz hs0 o]
  · exact he
  · exact absurd hl hdead

theorem Good.frame {pc : Pc} (h : Good g (s.ptr false) (s.owner false) u pc) (F : Frame s s' t)
    (hu : u≠t) : Good g (s'.ptr false) (s'.owner false) u pc := by
  cases pc with
  | idle => trivial
  | found w => exact Pending.frame h F hu
  | freeing w blk n => exact Pending.frame h F hu
  | newing w => exact Pending.frame h F hu
  | filled w b =>
    refine ⟨h.1.frame F hu,h.2.1,?_⟩
    intro hr h0 o
    exact F.under h.1.live (level_ne_nil h.1.level) (h.2.2 hr) h0 o
  | restoring w b => exact ⟨F.live h.1,(F.ptr_eq h.2.2.2 h.1).trans h.2.1,h.2.2⟩
  | reading w => exact Below.frame h F
  | writing w =>
    refine ⟨h.1.frame F hu,h.2.1,?_⟩
    have hs := level_ne_nil h.1.level
    have hlive : Live (s.ptr false) w.slot := by
      obtain ⟨o,q,hoq⟩ := List.exists_cons_of_ne_nil hs
      have hl := h.1.live
      have hne := h.2.2
      rw [hoq] at hl hne ⊢
      exact ⟨hne,hl⟩
    rw [F.ptr_eq hs hlive]
    exact h.2.2
  | failing w => exact h
  | _ => exact ⟨h.1.frame F hu,h.2⟩

theorem Inv.step (h : Inv g s) (F : Frame s s' t)
    (hown : Owned (Holds g s') (fun b => s'.used b=true))
    (hbound : ∀ b,s'.used b=true → 0<b ∧ b<2^31)
    (hgood : Good g (s'.ptr false) (s'.owner false) t (s'.th t)) : Inv g s' where
  owned := hown
  bound := hbound
  good := by
    intro u
    by_cases hu : u=t
    · subst hu
      exact hgood
    · rw [F.th u hu]
      exact (h.good u).frame F hu

end Frames

end Ext2fsX.Alloc
