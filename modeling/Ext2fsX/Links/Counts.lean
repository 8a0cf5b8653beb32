import Ext2fsX.Links.Tree
import Mathlib.Tactic.Ring

namespace Ext2fsX.Links

open Framework

namespace Tree

variable {ν : Type} {s : Tree ν} {d i j p : ℕ} {v : Int16}

def Counted (s : Tree ν) : Prop := ∀ i,(s.nlink i).toInt=s.entries.count i

def bal (s : Tree ν) (i : ℕ) : ℤ := (s.nlink i).toInt-s.entries.count i

theorem counted_iff : s.Counted ↔ ∀ i,s.bal i=0 := by
  unfold Counted bal
  constructor
  · intro h i
    rw [h i,sub_self]
  · intro h i
    exact sub_eq_zero.mp (h i)

theorem bal_setLinks (c : ℤ) (h : v.toInt=(s.nlink d).toInt+c) (i : ℕ) :
    (s.setLinks d v).bal i=s.bal i+c*ind d i := by
  unfold bal setLinks
  by_cases hi : i=d
  · subst hi
    simp only [Function.update_self,ind_self,h]
    ring
  · simp only [Function.update_of_ne hi,ind_ne (Ne.symm hi)]
    ring

theorem bal_bump (h : (s.nlink d).toInt<32767) (i : ℕ) : (s.bump d).bal i=s.bal i+ind d i := by
  have hv : (s.nlink d+1).toInt=(s.nlink d).toInt+1 := by
    have hlow := (s.nlink d).le_toInt
    rw [Int16.toInt_add,Int16.toInt_one]
    apply Int.bmod_eq_of_le <;> omega
  rw [bump,bal_setLinks 1 hv,one_mul]

theorem bal_unbump (h : -32768 < s.bal d) (i : ℕ) : (s.unbump d).bal i=s.bal i-ind d i := by
  have hv : (s.nlink d-1).toInt=(s.nlink d).toInt+(-1) := by
    have hhigh := (s.nlink d).toInt_lt
    unfold bal at h
    rw [Int16.toInt_sub,Int16.toInt_one]
    apply Int.bmod_eq_of_le <;> omega
  rw [unbump,bal_setLinks (-1) hv]
  ring

theorem lt_of_not_full (h : s.full d=false) : (s.nlink d).toInt<32767 := by
  by_contra hn
  have hhigh := (s.nlink d).toInt_lt
  have he : s.nlink d=linkMax := by
    apply Int16.toInt_inj.mp
    have hm : linkMax.toInt=32767 := rfl
    omega
  simp [full,he] at h

variable [DecidableEq ν] {n : Name ν}

theorem bal_enter (h : ¬s.entries.Has (d,n)) (j i : ℕ) : (s.enter d n j).bal i=s.bal i-ind j i := by
  unfold bal enter
  rw [RefMap.count_put_new h]
  ring

theorem bal_rewrite {j' : ℕ} (h : ((d,n),j')∈s.entries.pairs) (j i : ℕ) :
    (s.enter d n j).bal i=s.bal i+ind j' i-ind j i := by
  unfold bal enter
  rw [RefMap.count_put h]
  ring

theorem bal_remove (h : ((d,n),j)∈s.entries.pairs) (i : ℕ) :
    (s.remove d n).bal i=s.bal i+ind j i := by
  unfold bal remove
  rw [RefMap.count_del h]
  ring

theorem bal_truncate (hdot : ((d,.dot),d)∈s.entries.pairs)
    (hdotdot : ((d,.dotdot),p)∈s.entries.pairs)
    (honly : ∀ n j,((d,n),j)∈s.entries.pairs → n=.dot ∨ n=.dotdot) (i : ℕ) :
    (s.truncate d).bal i=s.bal i+ind d i+ind p i := by
  have he : s.entries.keep (fun k => decide (k.1≠d))=(s.entries.del (d,.dot)).del (d,.dotdot) := by
    ext ⟨⟨x,n⟩,j⟩
    simp only [RefMap.mem_keep,RefMap.mem_del,decide_eq_true_eq,ne_eq,Prod.mk.injEq]
    constructor
    · rintro ⟨hm,hx⟩
      exact ⟨⟨hm,fun h => hx h.1⟩,fun h => hx h.1⟩
    rintro ⟨⟨hm,h1⟩,h2⟩
    refine ⟨hm,?_⟩
    rintro rfl
    obtain rfl | rfl := honly n j hm
    · exact h1 ⟨rfl,rfl⟩
    · exact h2 ⟨rfl,rfl⟩
  have hrest : ((d,Name.dotdot),p)∈(s.entries.del (d,.dot)).pairs :=
    RefMap.mem_del.mpr ⟨hdotdot,by simp⟩
  unfold bal truncate
  simp only [he]
  rw [RefMap.count_del hrest,RefMap.count_del hdot]
  ring

omit [DecidableEq ν] in
theorem truncate_of_none (h : ∀ n j,((d,n),j)∉s.entries.pairs) : s.truncate d=s := by
  have he : s.entries.keep (fun k => decide (k.1≠d))=s.entries := by
    ext ⟨⟨x,n⟩,j⟩
    simp only [RefMap.mem_keep,decide_eq_true_eq]
    constructor
    · exact fun hm => hm.1
    · intro hm
      refine ⟨hm,?_⟩
      rintro rfl
      exact h n j hm
  unfold truncate
  rw [he]

end Tree

open Links.Tree

section Shape

variable {ν : Type}

def Tree.Home (s : Tree ν) (d : ℕ) : Prop :=
  s.isDir d=true ∧ ((d,Name.dot),d)∈s.entries.pairs ∧ ∃ p,((d,Name.dotdot),p)∈s.entries.pairs

structure Shaped (s : Tree ν) : Prop where
  home : ∀ d n j,((d,n),j)∈s.entries.pairs → s.Home d
  dots : ∀ k d,(k,d)∈s.entries.pairs → s.isDir d=true → ((d,Name.dot),d)∈s.entries.pairs
  parents : ∀ d p,((d,Name.dotdot),p)∈s.entries.pairs → s.isDir p=true

structure Sound (s : Tree ν) : Prop extends Shaped s where
  counted : s.Counted

variable {s : Tree ν} {d ip j p : ℕ} {n : Name ν}

theorem Shaped.congr {t : Tree ν} (h : Shaped s) (he : t.entries=s.entries) (hd : t.isDir=s.isDir) : Shaped t := by
  cases s
  subst he hd
  exact ⟨h.home,h.dots,h.parents⟩

theorem Shaped.setLinks (h : Shaped s) (d : ℕ) (v : Int16) : Shaped (s.setLinks d v) :=
  h.congr rfl rfl

theorem Shaped.home_of_ref (h : Shaped s) {k : ℕ × Name ν} (hk : (k,d)∈s.entries.pairs)
    (hd : s.isDir d=true) : s.Home d :=
  h.home d _ _ (h.dots k d hk hd)

theorem Shaped.truncate (h : Shaped s) (hno : ∀ k,(k,d)∈s.entries.pairs → k.1=d) :
    Shaped (s.truncate d) := by
  have hmem {x n j} : ((x,n),j)∈(s.truncate d).entries.pairs ↔ ((x,n),j)∈s.entries.pairs ∧ x≠d := by
    simp [Tree.truncate]
  refine ⟨fun x n j hx => ?_,fun ⟨x,n⟩ e hx he => ?_,fun x p hx => ?_⟩
  · obtain ⟨hx,hne⟩ := hmem.mp hx
    obtain ⟨hdir,hdot,p,hp⟩ := h.home x n j hx
    exact ⟨hdir,hmem.mpr ⟨hdot,hne⟩,p,hmem.mpr ⟨hp,hne⟩⟩
  · obtain ⟨hold,hne⟩ := hmem.mp hx
    refine hmem.mpr ⟨h.dots _ e hold he,?_⟩
    rintro rfl
    exact hne (hno _ hold)
  · exact h.parents x p (hmem.mp hx).1

theorem Sound.free (h : Sound s) (hz : s.nlink ip=0) :
    (∀ k,(k,ip)∉s.entries.pairs) ∧ ∀ n j,((ip,n),j)∉s.entries.pairs := by
  have hc := h.counted ip
  rw [hz,Int16.toInt_zero] at hc
  have hno (k) : (k,ip)∉s.entries.pairs := RefMap.not_mem_of_count (by exact_mod_cast hc.symm)
  exact ⟨hno,fun n j hm => hno _ (h.home ip n j hm).2.1⟩

theorem Sound.exists_ref (h : Sound s) (hz : s.nlink d≠0) : ∃ k,(k,d)∈s.entries.pairs := by
  apply RefMap.exists_of_count_pos
  have hc := h.counted d
  rw [Nat.pos_iff_ne_zero]
  intro h0
  rw [h0] at hc
  exact hz (Int16.toInt_inj.mp hc)

theorem Sound.home_of_dir (h : Sound s) (hd : s.Dir d) : s.Home d := by
  obtain ⟨k,hk⟩ := h.exists_ref hd.2
  exact h.home_of_ref hk hd.1

theorem Shaped.alloc (h : Shaped s) (hno : ∀ k,(k,ip)∉s.entries.pairs) (dir : Bool) (v : Int16) :
    Shaped (s.alloc ip dir v) := by
  have hne {x n j} (hx : ((x,n),j)∈s.entries.pairs) : x≠ip := by
    rintro rfl
    exact hno _ (h.home x n j hx).2.1
  have hdir {x} (hx : x≠ip) : (s.alloc ip dir v).isDir x=s.isDir x := Function.update_of_ne hx _ _
  refine ⟨fun x n j hx => ?_,fun k e hx he => ?_,fun x p hx => ?_⟩
  · obtain ⟨hd,hrest⟩ := h.home x n j hx
    exact ⟨by rw [hdir (hne hx)]; exact hd,hrest⟩
  · have hep : e≠ip := fun hep => hno k (hep ▸ hx)
    rw [hdir hep] at he
    exact h.dots k e hx he
  · have hpp : p≠ip := fun hpp => hno (x,.dotdot) (hpp ▸ hx)
    rw [hdir hpp]
    exact h.parents x p hx

variable [DecidableEq ν] {m : ν}

theorem Shaped.enter {k : Name ν} (h : Shaped s) (hk : k≠.dot) (hd : s.Home d)
    (hj : s.isDir j=true → ((j,Name.dot),j)∈s.entries.pairs) (hp : k=.dotdot → s.isDir j=true) :
    Shaped (s.enter d k j) := by
  have hdot {x l : ℕ} (hx : ((x,Name.dot),l)∈s.entries.pairs) :
      ((x,Name.dot),l)∈(s.enter d k j).entries.pairs :=
    RefMap.mem_put.mpr (.inr ⟨hx,fun he => hk (congrArg Prod.snd he).symm⟩)
  have hhome {x : ℕ} (hx : s.Home x) : (s.enter d k j).Home x := by
    obtain ⟨hdir,hx,q,hq⟩ := hx
    refine ⟨hdir,hdot hx,?_⟩
    by_cases he : (x,Name.dotdot)=(d,k)
    · exact ⟨j,RefMap.mem_put.mpr (.inl ⟨he,rfl⟩)⟩
    · exact ⟨q,RefMap.mem_put.mpr (.inr ⟨hq,he⟩)⟩
  refine ⟨fun x n l hx => ?_,fun y e hx he => ?_,fun x l hx => ?_⟩
  · obtain ⟨hk,-⟩ | ⟨hx,-⟩ := RefMap.mem_put.mp hx
    · obtain ⟨rfl,-⟩ := Prod.mk.inj hk
      exact hhome hd
    · exact hhome (h.home x n l hx)
  · obtain ⟨-,rfl⟩ | ⟨hx,-⟩ := RefMap.mem_put.mp hx
    · exact hdot (hj he)
    · exact hdot (h.dots y e hx he)
  · obtain ⟨hk,rfl⟩ | ⟨hx,-⟩ := RefMap.mem_put.mp hx
    · exact hp (Prod.mk.inj hk).2.symm
    · exact h.parents x l hx

theorem Shaped.remove (h : Shaped s) : Shaped (s.remove d (.name m)) := by
  have hold {x l : ℕ} {k : Name ν} (hx : ((x,k),l)∈s.entries.pairs)
      (hk : k≠.name m) : ((x,k),l)∈(s.remove d (.name m)).entries.pairs :=
    RefMap.mem_del.mpr ⟨hx,fun he => hk (congrArg Prod.snd he)⟩
  refine ⟨fun x n l hx => ?_,fun k e hx he => ?_,fun x p hx => ?_⟩
  · obtain ⟨hdir,hdot,p,hp⟩ := h.home x n l (RefMap.mem_del.mp hx).1
    exact ⟨hdir,hold hdot (by simp),p,hold hp (by simp)⟩
  · exact hold (h.dots k e (RefMap.mem_del.mp hx).1 he) (by simp)
  · exact h.parents x p (RefMap.mem_del.mp hx).1

end Shape

end Ext2fsX.Links
