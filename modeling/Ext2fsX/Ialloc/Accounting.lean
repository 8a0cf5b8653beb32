import Ext2fsX.Ialloc.Regions

namespace Ext2fsX.Ialloc

open Framework
open Function (update update_self update_of_ne)
open Balloc (findFirstZeroBit findFirstZeroBit_clear sub16 sub32 sub16_eq sub32_eq
  sum_update)

namespace Geometry

variable (g : Geometry)

theorem of_inodeAt (i j : ℕ) (hj : j<g.inodesPerGroup) :
    g.groupOf (g.inodeAt i j)=i ∧ g.bitOf (g.inodeAt i j)=j := by
  unfold groupOf bitOf inodeAt
  rw [Nat.add_sub_cancel]
  constructor
  · rw [Nat.add_mul_div_right _ _ g.ipg_pos,Nat.div_eq_of_lt hj,Nat.zero_add]
  · rw [Nat.add_mul_mod_self_right,Nat.mod_eq_of_lt hj]

variable (ino : ℕ)

theorem inodeAt_of (h : 1 ≤ ino) : g.inodeAt (g.groupOf ino) (g.bitOf ino)=ino := by
  have hm := Nat.div_add_mod (ino-1) g.inodesPerGroup
  unfold inodeAt groupOf bitOf
  rw [Nat.mul_comm] at hm
  omega

theorem bitOf_lt : g.bitOf ino<g.inodesPerGroup := Nat.mod_lt _ g.ipg_pos

theorem groupOf_lt (h1 : 1 ≤ ino) (h2 : ino≤g.inodesCount) : g.groupOf ino<g.groupsCount := by
  unfold groupOf
  rw [Nat.div_lt_iff_lt_mul g.ipg_pos,← g.count_eq]
  omega

theorem inodeAt_le (i j : ℕ) (hi : i<g.groupsCount) (hj : j<g.inodesPerGroup) :
    g.inodeAt i j≤g.inodesCount := by
  have hm := Nat.mul_le_mul_right g.inodesPerGroup hi
  rw [Nat.succ_mul] at hm
  unfold inodeAt
  rw [g.count_eq]
  omega

end Geometry

def noDir (a : Inodes) (kind : ℕ → ℕ → Bool) (i j : ℕ) : Bool := !(a.bitmap i j && kind i j)

structure FreeCounts (g : Geometry) (a : Inodes) : Prop where
  group : ∀ i<g.groupsCount,a.bgFree i=clearBits (a.bitmap i) g.inodesPerGroup
  total : a.sFree=∑ i ∈ Finset.range g.groupsCount,a.bgFree i

/-- `kind` says which of the inodes in use are directories; the bits of the reserved inodes are set.
-/
structure Accounted (g : Geometry) (a : Inodes) (kind : ℕ → ℕ → Bool) : Prop
    extends FreeCounts g a where
  dirs : ∀ i<g.groupsCount,a.bgDirs i=clearBits (noDir a kind i) g.inodesPerGroup
  dirTotal : a.dircount=((∑ i ∈ Finset.range g.groupsCount,a.bgDirs i : ℕ) : ℤ)
  reserved : ∀ i j,i<g.groupsCount → j<g.inodesPerGroup → g.inodeAt i j<11 → a.bitmap i j=true

variable {kind : ℕ → ℕ → Bool} {g : Geometry}

theorem FreeCounts.total_le {a : Inodes} (h : FreeCounts g a) : a.sFree≤g.inodesCount := by
  have hle : ∀ i∈Finset.range g.groupsCount,a.bgFree i≤g.inodesPerGroup := by
    intro i hi
    rw [h.group i (Finset.mem_range.mp hi)]
    exact clearBits_le _ _
  have hs := Finset.sum_le_card_nsmul _ _ _ hle
  rw [Finset.card_range,smul_eq_mul,← g.count_eq] at hs
  exact h.total ▸ hs

theorem FreeCounts.group_le_total {a : Inodes}
    (h : FreeCounts g a) (i : ℕ) (hi : i<g.groupsCount) : a.bgFree i≤a.sFree := by
  rw [h.total]
  exact Finset.single_le_sum (f := a.bgFree) (fun _ _ => Nat.zero_le _) (Finset.mem_range.mpr hi)

def setKind (kind : ℕ → ℕ → Bool) (i j : ℕ) (dir : Bool) : ℕ → ℕ → Bool :=
  update kind i (update (kind i) j dir)

structure Took (g : Geometry) (a b : Inodes) (dir : Bool) (i j : ℕ) : Prop where
  clear : a.bitmap i j=false
  inside : j<g.inodesPerGroup
  bits : b.bitmap=update a.bitmap i (update (a.bitmap i) j true)
  free : b.bgFree=update a.bgFree i (sub16 (a.bgFree i) 1)
  used : b.bgDirs=if dir then update a.bgDirs i ((a.bgDirs i+1)%2^16) else a.bgDirs
  all : b.sFree=sub32 a.sFree 1
  alldirs : b.dircount=if dir then a.dircount+1 else a.dircount

structure Gave (g : Geometry) (a b : Inodes) (dir : Bool) (i j : ℕ) : Prop where
  set : a.bitmap i j=true
  inside : j<g.inodesPerGroup
  bits : b.bitmap=update a.bitmap i (update (a.bitmap i) j false)
  free : b.bgFree=update a.bgFree i ((a.bgFree i+1)%2^16)
  used : b.bgDirs=if dir then update a.bgDirs i (sub16 (a.bgDirs i) 1) else a.bgDirs
  all : b.sFree=(a.sFree+1)%2^32
  alldirs : b.dircount=if dir then a.dircount-1 else a.dircount

variable {a b : Inodes}

theorem Accounted.update {kind kind' : ℕ → ℕ → Bool}
    (h : Accounted g a kind) (i : ℕ) (hi : i<g.groupsCount) (bits : ℕ → Bool) (d : ℕ)
    (hbits : b.bitmap=update a.bitmap i bits) (hkind : ∀ k,k≠i → kind' k=kind k)
    (hfree : b.bgFree=update a.bgFree i (clearBits bits g.inodesPerGroup))
    (htotal : b.sFree+a.bgFree i=a.sFree+clearBits bits g.inodesPerGroup)
    (hdirs : b.bgDirs=update a.bgDirs i d)
    (hd : d=clearBits (noDir b kind' i) g.inodesPerGroup)
    (hall : b.dircount+a.bgDirs i=a.dircount+d)
    (hres : ∀ j,j<g.inodesPerGroup → g.inodeAt i j<11 → bits j=true) : Accounted g b kind' := by
  refine ⟨⟨fun k hk => ?_,?_⟩,fun k hk => ?_,?_,fun k j hk hj hr => ?_⟩
  · rw [hbits,hfree]
    by_cases he : k=i
    · subst he
      simp
    · simp only [update_of_ne he]
      exact h.group k hk
  · have hs := sum_update a.bgFree g.groupsCount i (clearBits bits g.inodesPerGroup) hi
    have ht := h.total
    rw [hfree]
    omega
  · by_cases he : k=i
    · subst he
      rw [hdirs,update_self]
      exact hd
    · rw [hdirs,update_of_ne he,h.dirs k hk]
      have hb : noDir b kind' k=noDir a kind k := by
        funext j
        simp only [noDir,hbits,update_of_ne he,hkind k he]
      rw [hb]
  · have hs := sum_update a.bgDirs g.groupsCount i d hi
    have ht := h.dirTotal
    rw [hdirs]
    omega
  · rw [hbits]
    by_cases he : k=i
    · subst he
      rw [update_self]
      exact hres j hj hr
    · rw [update_of_ne he]
      exact h.reserved k j hk hj hr

theorem Took.accounted {dir : Bool} {i j : ℕ}
    (ht : Took g a b dir i j) (h : Accounted g a kind) (hi : i<g.groupsCount) :
    Accounted g b (setKind kind i j dir) := by
  have hset := clearBits_set (a.bitmap i) g.inodesPerGroup j ht.inside ht.clear
  have hmax := clearBits_le (a.bitmap i) g.inodesPerGroup
  have hgrp := h.group i hi
  have hle := h.group_le_total i hi
  have htot := h.total_le
  have hlt := g.ipg_lt
  have hcnt := g.count_lt
  have hdirs := h.dirs i hi
  -- the ghost bit of a clear inode counts as no directory, whatever its kind was
  have hold : noDir a kind i j=true := by simp [noDir,ht.clear]
  have hc := clearBits_clear (noDir a kind i) g.inodesPerGroup j ht.inside hold
  have hnew : noDir b (setKind kind i j dir) i=update (noDir a kind i) j (!dir) := by
    funext k
    by_cases hk : k=j
    · subst hk
      simp [noDir,setKind,ht.bits]
    · simp [noDir,setKind,ht.bits,update_of_ne hk]
  apply h.update i hi (update (a.bitmap i) j true)
    (if dir then a.bgDirs i+1 else a.bgDirs i) ht.bits
  · intro k hk
    exact update_of_ne hk _ _
  · rw [ht.free,sub16_eq _ _ (by omega) (by omega)]
    congr 1
    omega
  · rw [ht.all,sub32_eq _ _ (by omega) (by omega)]
    omega
  · rw [ht.used]
    cases dir with
    | true =>
      have hroom : a.bgDirs i+1≤g.inodesPerGroup := by
        have hm := clearBits_le (update (noDir a kind i) j false) g.inodesPerGroup
        omega
      simp only [if_true]
      rw [Nat.mod_eq_of_lt (by omega)]
    | false => simp
  · rw [hnew]
    cases dir with
    | true =>
      simp only [if_true,Bool.not_true]
      omega
    | false =>
      simp only [Bool.false_eq_true,if_false,Bool.not_false]
      rw [← hold,Function.update_eq_self]
      exact hdirs
  · rw [ht.alldirs]
    cases dir with
    | true =>
      simp only [if_true]
      omega
    | false => simp
  · intro k hk hr
    by_cases hkj : k=j
    · subst hkj
      simp
    · rw [update_of_ne hkj]
      exact h.reserved i k hi hk hr

theorem Gave.accounted {i j : ℕ}
    (ht : Gave g a b (kind i j) i j) (h : Accounted g a kind) (hi : i<g.groupsCount)
    (hr : 11≤g.inodeAt i j) : Accounted g b kind := by
  have hclr := clearBits_clear (a.bitmap i) g.inodesPerGroup j ht.inside ht.set
  have hmax := clearBits_le (update (a.bitmap i) j false) g.inodesPerGroup
  have hgrp := h.group i hi
  have hlt := g.ipg_lt
  have hcnt := g.count_lt
  have hdmax := clearBits_le (noDir a kind i) g.inodesPerGroup
  have hdirs := h.dirs i hi
  have hpos (hk : kind i j=true) := clearBits_set (noDir a kind i) g.inodesPerGroup j ht.inside
    (by simp [noDir,ht.set,hk])
  have hnew : noDir b kind i=update (noDir a kind i) j true := by
    funext k
    by_cases hk : k=j
    · subst hk
      simp [noDir,ht.bits]
    · simp [noDir,ht.bits,update_of_ne hk]
  -- one bit of the group is set, so not all inodes of the filesystem are free
  have hroom : a.sFree+1≤g.inodesCount := by
    have hle : ∀ k∈Finset.range g.groupsCount,
        update a.bgFree i (a.bgFree i+1) k≤g.inodesPerGroup := by
      intro k hk
      by_cases he : k=i
      · subst he
        rw [update_self]
        omega
      · rw [update_of_ne he,h.group k (Finset.mem_range.mp hk)]
        exact clearBits_le _ _
    have hs : (∑ k ∈ Finset.range g.groupsCount,
        update a.bgFree i (a.bgFree i+1) k)≤_ := Finset.sum_le_card_nsmul _ _ _ hle
    have hu := sum_update a.bgFree g.groupsCount i (a.bgFree i+1) hi
    have ht := h.total
    rw [Finset.card_range,smul_eq_mul,← g.count_eq] at hs
    omega
  apply h.update i hi (update (a.bitmap i) j false)
    (if kind i j then a.bgDirs i-1 else a.bgDirs i) ht.bits
  · exact fun k _ => rfl
  · rw [ht.free,Nat.mod_eq_of_lt (by omega),hclr,hgrp]
  · rw [ht.all,Nat.mod_eq_of_lt (by omega)]
    omega
  · rw [ht.used]
    cases hk : kind i j with
    | true =>
      have hs := hpos hk
      simp only [if_true]
      rw [sub16_eq _ _ (by omega) (by omega)]
    | false => simp
  · rw [hnew]
    cases hk : kind i j with
    | true =>
      have hs := hpos hk
      simp only [if_true]
      omega
    | false =>
      have hd : noDir a kind i j=true := by simp [noDir,hk]
      simp only [Bool.false_eq_true,if_false]
      rw [← hd,Function.update_eq_self]
      exact hdirs
  · rw [ht.alldirs]
    cases hk : kind i j with
    | true =>
      have hs := hpos hk
      simp only [if_true]
      omega
    | false => simp
  · intro k hk hr'
    have hkj : k≠j := by
      rintro rfl
      omega
    rw [update_of_ne hkj]
    exact h.reserved i k hi hk hr'

variable (g : Geometry)

theorem inodeAt_checked {i j : ℕ} (hi : i<g.groupsCount) (hj : j<g.inodesPerGroup)
    (hr : 11≤g.inodeAt i j) (hint : g.inodeAt i j<2^31) :
    ¬((g.inodeAt i j : ℤ).bmod (2^32)<11 ∨ g.inodesCount<g.inodeAt i j%2^32) := by
  have hle := g.inodeAt_le i j hi hj
  have hb : (g.inodeAt i j : ℤ).bmod (2^32)=g.inodeAt i j := by
    apply Int.bmod_eq_of_le
    · omega
    · omega
  omega

theorem newInodeFinish_cases (hsmall : g.inodesCount<2^31) (a : Inodes)
    (kind : ℕ → ℕ → Bool) (h : Accounted g a kind) (dir : Bool) (i last : ℕ)
    (hi : i<g.groupsCount) :
    newInodeFinish g a dir i last=.again ∨ newInodeFinish g a dir i last=.corrupted ∨
      ∃ b j,newInodeFinish g a dir i last=.got b (g.inodeAt i j) ∧ Took g a b dir i j := by
  unfold newInodeFinish
  by_cases hj : findFirstZeroBit (a.bitmap i) 0 g.inodesPerGroup<g.inodesPerGroup
  · have hclear := findFirstZeroBit_clear (a.bitmap i) 0 g.inodesPerGroup hj
    rw [Nat.mul_zero,Nat.zero_add] at hclear
    have hr : 11≤g.inodeAt i (findFirstZeroBit (a.bitmap i) 0 g.inodesPerGroup) := by
      by_contra hn
      have hs := h.reserved i _ hi hj (by omega)
      rw [hclear] at hs
      cases hs
    have hok := inodeAt_checked g hi hj hr (Nat.lt_of_le_of_lt (g.inodeAt_le i _ hi hj) hsmall)
    right
    right
    simp only [hj,if_true,hclear,Bool.false_eq_true,if_false,hok]
    exact ⟨_,_,rfl,⟨hclear,hj,rfl,rfl,rfl,rfl,rfl⟩⟩
  · simp only [hj,if_false]
    by_cases hz : a.bgFree i≠0
    · exact .inr (.inl (if_pos hz))
    · exact .inl (if_neg hz)

variable (a : Inodes)

theorem freeInodeFinish_gave (dir : Bool) (ino : ℕ)
    (hs : a.bitmap (g.groupOf ino) (g.bitOf ino)=true) :
    Gave g a (freeInodeFinish g a dir ino) dir (g.groupOf ino) (g.bitOf ino) := by
  unfold freeInodeFinish
  simp only [hs,if_true]
  exact ⟨hs,g.bitOf_lt ino,rfl,rfl,rfl,rfl,rfl⟩

theorem dirSearch_some (free blocks : ℕ → ℕ) (ave : ℤ) (n j : ℕ) (best : Option ℕ) (i : ℕ)
    (hbest : ∀ k,best=some k → k<n+j ∧ free k≠0) (h : dirSearch free blocks ave n j best=some i) : i<n+j ∧ free i≠0 := by
  induction n generalizing j best with
  | zero => exact hbest i h
  | succ n ih =>
    have hi := ih (j+1) _ ?_ h
    · exact ⟨by omega,hi.2⟩
    intro k hk
    split_ifs at hk with hc
    · cases hk
      exact ⟨by omega,hc.1⟩
    · have hb := hbest k hk
      exact ⟨by omega,hb.2⟩

variable (free : ℕ → ℕ)

theorem hashSearch_some (n j i k : ℕ) (hi : i<g.groupsCount)
    (h : hashSearch g free n j i=some k) : k<g.groupsCount ∧ free k≠0 := by
  induction n generalizing i j with
  | zero => cases h
  | succ n ih =>
    unfold hashSearch at h
    by_cases hj : g.groupsCount≤j
    · rw [if_pos hj] at h
      cases h
    rw [if_neg hj] at h
    have hstep : (if g.groupsCount ≤ i+j then i+j-g.groupsCount else i+j)<g.groupsCount := by
      split <;> omega
    dsimp only at h
    generalize (if g.groupsCount ≤ i+j then i+j-g.groupsCount else i+j)=q at h hstep
    split at h
    · next hq =>
      cases h
      exact ⟨hstep,hq⟩
    · exact ih _ _ hstep h

theorem linearSearch_eq (n i : ℕ) :
    linearSearch g free n i=firstAfter g.groupsCount (fun c => decide (free c≠0)) n i := by
  induction n generalizing i with
  | zero => rfl
  | succ n ih =>
    unfold linearSearch firstAfter
    generalize (if g.groupsCount ≤ i+1 then 0 else i+1)=q
    by_cases h : free q≠0
    · simp [h]
    · simp only [h,if_false,decide_false,Bool.false_eq_true]
      exact ih q

theorem linearSearch_some (n i k : ℕ)
    (h : linearSearch g free n i=some k) : k<g.groupsCount ∧ free k≠0 := by
  rw [linearSearch_eq] at h
  obtain ⟨hk,hp⟩ := firstAfter_some g.groups_pos h
  exact ⟨hk,of_decide_eq_true hp⟩

theorem newInodeStart_some (blocks : ℕ → ℕ) (dg : ℕ) (dir : Bool)
    (i last : ℕ) (hd : dg<g.groupsCount) (h : newInodeStart g a blocks dg dir=some (i,last)) :
    i<g.groupsCount ∧ a.bgFree i≠0 := by
  unfold newInodeStart at h
  cases dir with
  | true =>
    obtain ⟨k,hk,he⟩ := Option.map_eq_some_iff.mp h
    cases he
    have hl := dirSearch_some _ _ _ _ _ none i (fun _ hb => nomatch hb) hk
    exact ⟨by omega,hl.2⟩
  | false =>
    by_cases hz : a.bgFree dg≠0
    · rw [if_pos hz] at h
      cases h
      exact ⟨hd,hz⟩
    rw [if_neg hz] at h
    obtain ⟨k,hk,he⟩ := Option.map_eq_some_iff.mp h
    cases he
    cases hh : hashSearch g a.bgFree g.groupsCount 1 dg with
    | some q =>
      rw [hh,Option.some_or] at hk
      cases hk
      exact hashSearch_some g _ _ _ _ _ hd hh
    | none =>
      rw [hh,Option.none_or] at hk
      exact linearSearch_some g _ _ _ _ hk

end Ext2fsX.Ialloc
