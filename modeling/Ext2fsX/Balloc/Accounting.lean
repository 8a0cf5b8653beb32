import Ext2fsX.Balloc.Regions
import Ext2fsX.Framework.Cyclic
import Mathlib.Algebra.BigOperators.Fin
import Mathlib.Algebra.Order.BigOperators.Group.Finset

namespace Ext2fsX.Balloc

open Framework
open Function (update update_self update_of_ne)

theorem searchBack_le (bits : ℕ → Bool) (k j : ℕ) : searchBack bits k j≤j := by
  induction k generalizing j with
  | zero => simp [searchBack]
  | succ k ih =>
    cases j with
    | zero => simp [searchBack]
    | succ j =>
      have h := ih j
      unfold searchBack
      split <;> omega

theorem searchBack_clear (bits : ℕ → Bool) (k j : ℕ) (h : bits j=false) :
    bits (searchBack bits k j)=false := by
  induction k generalizing j with
  | zero => simpa [searchBack] using h
  | succ k ih =>
    cases j with
    | zero => simpa [searchBack] using h
    | succ j =>
      unfold searchBack
      cases hb : bits j with
      | true => simpa [hb] using h
      | false => simpa [hb] using ih j hb

private theorem byte_clear (bpg b n : ℕ) (bits : ℕ → Bool) (hd : 64∣bpg) (hn : bpg≤8*(b+n))
    (h : memscan bits b n*8<bpg) : bits (memscan bits b n*8)=false := by
  have hz := zeroByte_clear bits _ 0 (memscan_zero bits b n (by omega)) (by omega)
  rwa [Nat.add_zero,Nat.mul_comm] at hz

theorem goalSearch_sound (bpg : ℕ) (bits : ℕ → Bool) (j k : ℕ) (hd : 64∣bpg) (hb : bpg<2^16)
    (hj : j<bpg) (h : goalSearch bpg bits j=some k) : k<bpg ∧ bits k=false := by
  obtain ⟨w,rfl⟩ := hd
  unfold goalSearch at h
  by_cases hg : bits j=false
  · simp only [hg,Bool.not_false,if_true,Option.some.injEq] at h
    subst h
    exact ⟨hj,hg⟩
  simp only [hg,Bool.not_true,Bool.false_eq_true,if_false] at h
  have hend : (j+63)/64*64≤64*w := by omega
  set near := if j=0 then 0 else findNextZeroBit bits ((j+63)/64*64) j with hnear
  have hnle : near≤64*w := by
    rw [hnear]
    split
    · omega
    · exact (findNextZeroBit_word bits j).trans hend
  split_ifs at h with h1 h2 h3
  · obtain ⟨hj0,hlt⟩ := h1
    have hv : near=findNextZeroBit bits ((j+63)/64*64) j := by rw [hnear,if_neg hj0]
    have hk : near=k := by simpa using h
    rw [← hk]
    refine ⟨by omega,?_⟩
    rw [hv] at hlt ⊢
    exact findNextZeroBit_clear bits _ j ⟨(j+63)/64,by omega⟩ (by omega) (by omega) hlt
  · have hk : searchBack bits 7 (memscan bits (near/8) ((64*w-near+7)/8)*8)=k := by simpa using h
    have hc := byte_clear (64*w) (near/8) ((64*w-near+7)/8) bits ⟨w,rfl⟩ (by omega) h2
    rw [← hk]
    exact ⟨lt_of_le_of_lt (searchBack_le bits 7 _) h2,searchBack_clear bits 7 _ hc⟩
  · have hk : findNextZeroBit bits (64*w) near=k := by simpa using h
    rw [← hk]
    exact ⟨h3,findNextZeroBit_clear bits (64*w) near ⟨w,rfl⟩ (by omega) hnle h3⟩

theorem scanSearch_sound (bpg : ℕ) (bits : ℕ → Bool) (k : ℕ) (hd : 64∣bpg)
    (h : scanSearch bpg bits=some k) : k<bpg ∧ bits k=false := by
  unfold scanSearch at h
  dsimp only at h
  split_ifs at h with h1 h2
  · have hk : searchBack bits 7 (memscan bits 0 (bpg/8)*8)=k := by simpa using h
    have hc := byte_clear bpg 0 (bpg/8) bits hd (by omega) h1
    rw [← hk]
    exact ⟨lt_of_le_of_lt (searchBack_le bits 7 _) h1,searchBack_clear bits 7 _ hc⟩
  · have hk : findFirstZeroBit bits 0 bpg=k := by simpa using h
    have hc := findFirstZeroBit_clear bits 0 bpg h2
    rw [← hk]
    exact ⟨h2,by simpa using hc⟩

variable (g : Disk) (a : Alloc)

theorem nextGroup_eq (k i : ℕ) : nextGroup g a k i=
      (firstAfter g.groupsCount (fun c => decide (0<a.bgFree c)) k i).elim .full .scan := by
  induction k generalizing i with
  | zero => rfl
  | succ k ih =>
    unfold nextGroup firstAfter wrapGroup
    generalize (if g.groupsCount ≤ i+1 then 0 else i+1)=q
    by_cases h : 0<a.bgFree q
    · simp [h]
    · simp only [h,if_false,decide_false,Bool.false_eq_true]
      exact ih q

theorem nextGroup_scan (k i i' : ℕ) (hg : 0<g.groupsCount)
    (h : nextGroup g a k i=.scan i') : i'<g.groupsCount ∧ 0<a.bgFree i' := by
  rw [nextGroup_eq] at h
  cases hf : firstAfter g.groupsCount (fun c => decide (0<a.bgFree c)) k i with
  | none =>
    rw [hf] at h
    cases h
  | some c =>
    rw [hf] at h
    cases h
    obtain ⟨hc,hp⟩ := firstAfter_some hg hf
    exact ⟨hc,of_decide_eq_true hp⟩

theorem nextGroup_lt (k i i' : ℕ) (hg : 0<g.groupsCount)
    (h : nextGroup g a k i=.scan i') : i'<g.groupsCount := (nextGroup_scan g a k i i' hg h).1

theorem nextGroup_ne_goal (k i i' j : ℕ) : nextGroup g a k i≠.goal i' j := by
  rw [nextGroup_eq]
  cases firstAfter g.groupsCount (fun c => decide (0<a.bgFree c)) k i <;> simp

namespace Disk

variable (g : Disk)

theorem groupsCount_pos : 0<g.groupsCount := by
  have h := g.first_lt
  rw [g.groups_eq]
  exact Nat.div_pos (by omega) g.bpg_pos

theorem groupOf_lt (b : ℕ) (h : g.Valid b) : g.groupOf b<g.groupsCount := by
  have hp := g.bpg_pos
  obtain ⟨h1,h2⟩ := h
  unfold groupOf
  rw [g.groups_eq,Nat.div_lt_iff_lt_mul hp]
  have hm := Nat.div_add_mod (g.blocksCount-g.firstDataBlock+g.blocksPerGroup-1) g.blocksPerGroup
  have hr := Nat.mod_lt (g.blocksCount-g.firstDataBlock+g.blocksPerGroup-1) hp
  rw [Nat.mul_comm] at hm
  omega

theorem bitOf_lt (b : ℕ) : g.bitOf b<g.blocksPerGroup := Nat.mod_lt _ g.bpg_pos

theorem blockAt_of (b : ℕ) (h : g.firstDataBlock≤b) : g.blockAt (g.groupOf b) (g.bitOf b)=b := by
  have hm := Nat.div_add_mod (b-g.firstDataBlock) g.blocksPerGroup
  unfold blockAt groupOf bitOf
  rw [Nat.mul_comm] at hm
  omega

theorem of_blockAt (i j : ℕ) (hj : j<g.blocksPerGroup) :
    g.groupOf (g.blockAt i j)=i ∧ g.bitOf (g.blockAt i j)=j := by
  unfold groupOf bitOf blockAt
  rw [Nat.add_sub_cancel]
  constructor
  · rw [Nat.add_mul_div_right _ _ g.bpg_pos,Nat.div_eq_of_lt hj,Nat.zero_add]
  · rw [Nat.add_mul_mod_self_right,Nat.mod_eq_of_lt hj]

theorem blockAt_add (i j k : ℕ) : g.blockAt i j+k=g.blockAt i (j+k) := by
  unfold blockAt
  omega

variable {block : ℕ} (h : g.firstDataBlock≤block)

include h

theorem of_add {k : ℕ} (hk : g.bitOf block+k<g.blocksPerGroup) :
    g.groupOf (block+k)=g.groupOf block ∧ g.bitOf (block+k)=g.bitOf block+k := by
  have ho := g.of_blockAt (g.groupOf block) _ hk
  rwa [← g.blockAt_add,g.blockAt_of block h] at ho

theorem bits_iff {b : ℕ} (hb : g.firstDataBlock≤b) (hg : g.groupOf b=g.groupOf block) (count : ℕ) :
    (g.bitOf block≤g.bitOf b ∧ g.bitOf b<g.bitOf block+count) ↔ block≤b ∧ b<block+count := by
  have h1 := g.blockAt_of block h
  have h2 := g.blockAt_of b hb
  rw [hg] at h2
  unfold blockAt at h1 h2
  omega

end Disk

theorem clampGoal_valid (goal : ℕ) : g.Valid (clampGoal g goal) := by
  have hf := g.first_lt
  unfold clampGoal
  split
  · exact ⟨le_refl _,hf⟩
  · exact ⟨by omega,by omega⟩

theorem newBlockStart_goal (goal i j : ℕ)
    (h : newBlockStart g a goal=.goal i j) : i<g.groupsCount ∧ j<g.blocksPerGroup := by
  simp only [newBlockStart] at h
  split at h
  · obtain ⟨hi,hj⟩ : g.groupOf (clampGoal g goal)=i ∧ g.bitOf (clampGoal g goal)=j := by
      simpa using h
    rw [← hi,← hj]
    exact ⟨g.groupOf_lt _ (clampGoal_valid g goal),g.bitOf_lt _⟩
  · exact absurd h (nextGroup_ne_goal _ _ _ _ _ _)

theorem newBlockStart_scan (goal i : ℕ) (h : newBlockStart g a goal=.scan i) : i<g.groupsCount := by
  simp only [newBlockStart] at h
  split at h
  · simp at h
  · exact nextGroup_lt g a _ _ i g.groupsCount_pos h

structure Window (bpg p : ℕ) (bits : ℕ → Bool) (r : ℕ × (ℕ → Bool)) : Prop where
  set : ∀ q,r.2 q=(bits q || decide (p≤q ∧ q<p+r.1))
  clear : ∀ q,p≤q → q<p+r.1 → bits q=false
  inside : p+r.1≤bpg
  count : clearBits r.2 bpg+r.1=clearBits bits bpg

theorem window_empty (bpg p : ℕ) (bits : ℕ → Bool) (hp : p≤bpg) : Window bpg p bits (0,bits) :=
  ⟨fun q => by simp,fun q h1 h2 => by simp at h2; omega,by simpa using hp,rfl⟩

theorem prealloc_window (bpg n p : ℕ) (bits : ℕ → Bool) (hp : p≤bpg) :
    Window bpg p bits (prealloc bpg n p bits) := by
  induction n generalizing p bits with
  | zero => exact window_empty bpg p bits hp
  | succ n ih =>
    unfold prealloc
    by_cases hb : bpg≤p
    · rw [if_pos hb]
      exact window_empty bpg p bits hp
    rw [if_neg hb]
    cases hs : bits p with
    | true =>
      exact window_empty bpg p bits hp
    | false =>
      rw [if_neg (by simp)]
      have hw := ih (p+1) (update bits p true) (by omega)
      have hset := clearBits_set bits bpg p (by omega) hs
      have hcount := hw.count
      have hinside := hw.inside
      refine ⟨fun q => ?_,fun q h1 h2 => ?_,by dsimp only; omega,by dsimp only; omega⟩
      · dsimp only
        rw [hw.set q]
        by_cases hq : q=p
        · subst hq
          simp
        · rw [update_of_ne hq,decide_eq_decide.mpr]
          omega
      · by_cases hq : q=p
        · exact hq ▸ hs
        · have hc := hw.clear q (by omega) (by dsimp only at h2; omega)
          rwa [update_of_ne hq] at hc

structure Accounted : Prop where
  group : ∀ i<g.groupsCount,a.bgFree i=clearBits (a.bitmap i) g.blocksPerGroup
  total : a.sFree=∑ i ∈ Finset.range g.groupsCount,a.bgFree i

def TailSet : Prop :=
  ∀ i j,i<g.groupsCount → j<g.blocksPerGroup → g.blocksCount≤g.blockAt i j → a.bitmap i j=true

theorem sum_update (f : ℕ → ℕ) (n i v : ℕ) (hi : i<n) :
    (∑ k ∈ Finset.range n,update f i v k)+f i=(∑ k ∈ Finset.range n,f k)+v := by
  have hm : i∈Finset.range n := Finset.mem_range.mpr hi
  rw [Finset.sum_update_of_mem hm,← Finset.sum_sdiff (Finset.singleton_subset_iff.mpr hm),
    Finset.sum_singleton]
  omega

theorem sum_min (T d n : ℕ) :
    (∑ k ∈ Finset.range n,min d (T-k*d))≤T ∧ (∑ k ∈ Finset.range n,min d (T-k*d))≤n*d := by
  induction n with
  | zero => simp
  | succ n ih =>
    rw [Finset.sum_range_succ,Nat.succ_mul]
    omega

variable {g : Disk}

theorem TailSet.valid {a : Alloc} (ht : TailSet g a) {i j : ℕ} (hi : i<g.groupsCount)
    (hj : j<g.blocksPerGroup) (hc : a.bitmap i j=false) : g.Valid (g.blockAt i j) := by
  refine ⟨Nat.le_add_left _ _,?_⟩
  by_contra hn
  have hs := ht i j hi hj (by omega)
  rw [hc] at hs
  cases hs

theorem Accounted.total_le {a : Alloc} (h : Accounted g a) (ht : TailSet g a) :
    a.sFree≤g.blocksCount-g.firstDataBlock := by
  have hle : ∀ i∈Finset.range g.groupsCount,a.bgFree i≤
      min g.blocksPerGroup (g.blocksCount-g.firstDataBlock-i*g.blocksPerGroup) := by
    intro i hi
    have hi := Finset.mem_range.mp hi
    rw [h.group i hi]
    refine le_min (clearBits_le _ _) (clearBits_le_of_set _ _ _ ?_)
    intro j hj hlt
    exact ht i j hi hlt (by unfold Disk.blockAt; omega)
  rw [h.total]
  exact (Finset.sum_le_sum hle).trans (sum_min _ _ _).1

theorem Accounted.group_le_total {a : Alloc} (h : Accounted g a) (i : ℕ)
    (hi : i<g.groupsCount) : a.bgFree i≤a.sFree := by
  rw [h.total]
  exact Finset.single_le_sum (f := a.bgFree) (fun _ _ => Nat.zero_le _) (Finset.mem_range.mpr hi)

theorem sub16_eq (x n : ℕ) (hx : x<2^16) (hn : n≤x) : sub16 x n=x-n := by
  unfold sub16
  rw [show x+2^16-n=2^16+(x-n) by omega,Nat.add_mod_left]
  exact Nat.mod_eq_of_lt (by omega)

theorem sub32_eq (x n : ℕ) (hx : x<2^32) (hn : n≤x) : sub32 x n=x-n := by
  unfold sub32
  rw [show x+2^32-n=2^32+(x-n) by omega,Nat.add_mod_left]
  exact Nat.mod_eq_of_lt (by omega)

theorem Accounted.update {a a' : Alloc} (h : Accounted g a) (i : ℕ)
    (hi : i<g.groupsCount) (bits : ℕ → Bool) (hb : a'.bitmap=update a.bitmap i bits)
    (hg : a'.bgFree=update a.bgFree i (clearBits bits g.blocksPerGroup))
    (ht : a'.sFree+a.bgFree i=a.sFree+clearBits bits g.blocksPerGroup) : Accounted g a' := by
  constructor
  · intro k hk
    rw [hb,hg]
    by_cases he : k=i
    · subst he
      simp
    · simp only [update_of_ne he]
      exact h.group k hk
  · have hs := sum_update a.bgFree g.groupsCount i (clearBits bits g.blocksPerGroup) hi
    have hsum := h.total
    rw [hg]
    omega

structure Took (g : Disk) (a a' : Alloc) (i j n : ℕ) : Prop where
  accounted : Accounted g a'
  set : ∀ k q,a'.bitmap k q=(a.bitmap k q || decide (k=i ∧ j≤q ∧ q≤j+n))
  clear : ∀ q,j≤q → q≤j+n → a.bitmap i q=false
  inside : j+n<g.blocksPerGroup

theorem gotBlock_cases (g : Disk) (a : Alloc) (pre : Bool) (i j : ℕ) (h : Accounted g a)
    (ht : TailSet g a) (hi : i<g.groupsCount) (hj : j<g.blocksPerGroup) (hc : a.bitmap i j=false) :
    gotBlock g a pre i j=.panic ∨
      ∃ a' n,gotBlock g a pre i j=.got a' (g.blockAt i j) n ∧ Took g a a' i j n := by
  have hvalid := (ht.valid hi hj hc).2
  have htmp : g.blockAt i j%2^32=g.blockAt i j := Nat.mod_eq_of_lt (hvalid.trans g.count_lt)
  simp only [gotBlock,htmp]
  split
  · exact .inl rfl
  right
  rw [if_neg (by simp [hc]),if_neg (by omega)]
  set bits := update (a.bitmap i) j true with hbits
  set r := if pre then prealloc g.blocksPerGroup (preallocGoal g-1) (j+1) bits else (0,bits) with hr
  have hw : Window g.blocksPerGroup (j+1) bits r := by
    rw [hr]
    split
    · exact prealloc_window _ _ _ _ (by omega)
    · exact window_empty _ _ _ (by omega)
  refine ⟨_,r.1,rfl,?_,?_,?_,?_⟩
  · have hset := clearBits_set (a.bitmap i) g.blocksPerGroup j hj hc
    have hcount := hw.count
    have hgrp := h.group i hi
    have hle := h.group_le_total i hi
    have hmax := clearBits_le (a.bitmap i) g.blocksPerGroup
    have htot := h.total_le ht
    have hb := g.bpg_lt
    have hn := g.count_lt
    rw [← hbits] at hset
    apply h.update i hi r.2 rfl
    · simp only [update_self,Function.update_idem]
      rw [sub16_eq (a.bgFree i) r.1 (by omega) (by omega),
        sub16_eq (a.bgFree i-r.1) 1 (by omega) (by omega)]
      congr 1
      omega
    · dsimp only
      rw [sub32_eq a.sFree r.1 (by omega) (by omega),sub32_eq (a.sFree-r.1) 1 (by omega) (by omega)]
      omega
  · intro k q
    by_cases hk : k=i
    · subst hk
      simp only [update_self,hw.set q,hbits,true_and]
      by_cases hq : q=j
      · subst hq
        simp
      · rw [update_of_ne hq,decide_eq_decide.mpr]
        omega
    · simp [hk]
  · intro q h1 h2
    by_cases hq : q=j
    · exact hq ▸ hc
    · have hcq := hw.clear q (by omega) (by omega)
      rwa [hbits,update_of_ne hq] at hcq
  · have hin := hw.inside
    omega

structure Freed (g : Disk) (a a' : Alloc) (i bit n : ℕ) : Prop where
  accounted : Accounted g a'
  bits : ∀ k q,a'.bitmap k q=(a.bitmap k q && !decide (k=i ∧ bit≤q ∧ q<bit+n))

theorem Freed.tail {a a' : Alloc} {i bit n : ℕ} (h : Freed g a a' i bit n)
    (ht : TailSet g a) (hv : g.blockAt i bit+n≤g.blocksCount) : TailSet g a' := by
  intro k q hk hq hp
  have hout : ¬(k=i ∧ bit≤q ∧ q<bit+n) := by
    rintro ⟨rfl,h1,h2⟩
    unfold Disk.blockAt at hp hv
    omega
  rw [h.bits k q,ht k q hk hq hp]
  simp [hout]

theorem clearBit_bitmap (i bit : ℕ) (a : Alloc) (k q : ℕ) :
    (clearBit a i bit).bitmap k q=(a.bitmap k q && !decide (k=i ∧ q=bit)) := by
  unfold clearBit
  by_cases hk : k=i
  · subst hk
    by_cases hq : q=bit
    · subst hq
      by_cases hs : a.bitmap k q=true <;> simp [hs]
    · split <;> simp [hq]
  · split <;> simp [hk]

theorem clearLoop_bitmap (i n bit : ℕ) (a : Alloc) (k q : ℕ) :
    (clearLoop i n bit a).bitmap k q=(a.bitmap k q && !decide (k=i ∧ bit≤q ∧ q<bit+n)) := by
  induction n generalizing bit a with
  | zero =>
    have hne : ¬(bit≤q ∧ q<bit+0) := by omega
    simp only [clearLoop,hne,and_false,decide_false,Bool.not_false,Bool.and_true]
  | succ n ih =>
    unfold clearLoop
    rw [ih,clearBit_bitmap,Bool.and_assoc]
    congr 1
    rw [← Bool.not_or,← Bool.decide_or]
    congr 2
    apply propext
    omega

theorem clearBit_freed (g : Disk) (a : Alloc) (i bit : ℕ) (h : Accounted g a) (ht : TailSet g a)
    (hi : i<g.groupsCount) (hb : bit<g.blocksPerGroup) (hs : a.bitmap i bit=true)
    (hv : g.blockAt i bit<g.blocksCount) :
    Freed g a (clearBit a i bit) i bit 1 := by
  refine ⟨?_,clearLoop_bitmap i 1 bit a⟩
  have hclr := clearBits_clear (a.bitmap i) g.blocksPerGroup bit hb hs
  have hgrp := h.group i hi
  let b : Alloc := { a with
    bitmap := update a.bitmap i (update (a.bitmap i) bit false)
    bgFree := update a.bgFree i (a.bgFree i+1)
    sFree := a.sFree+1 }
  have hacc : Accounted g b := by
    apply h.update i hi (update (a.bitmap i) bit false) rfl
    · rw [hclr,← hgrp]
    · change a.sFree+1+_=_
      omega
  have hfree : Freed g a b i bit 1 := by
    refine ⟨hacc,fun k q => ?_⟩
    rw [← clearLoop_bitmap i 1 bit a]
    simp [b,clearLoop,clearBit,hs]
  have hmod : clearBit a i bit=b := by
    have hmax := clearBits_le (update (a.bitmap i) bit false) g.blocksPerGroup
    have htot : a.sFree+1≤_ := hacc.total_le (hfree.tail ht (by omega))
    have hbpg := g.bpg_lt
    have hcnt := g.count_lt
    simp only [clearBit,hs,if_true,b]
    rw [Nat.mod_eq_of_lt (by omega),Nat.mod_eq_of_lt (by omega)]
  exact hmod ▸ hacc

theorem clearLoop_freed (g : Disk) (a : Alloc) (i bit n : ℕ) (h : Accounted g a)
    (ht : TailSet g a) (hi : i<g.groupsCount) (hb : bit+n≤g.blocksPerGroup)
    (hs : ∀ q,bit≤q → q<bit+n → a.bitmap i q=true) (hv : g.blockAt i bit+n≤g.blocksCount) :
    Freed g a (clearLoop i n bit a) i bit n := by
  refine ⟨?_,clearLoop_bitmap i n bit a⟩
  induction n generalizing bit a with
  | zero => exact h
  | succ n ih =>
    have one := clearBit_freed g a i bit h ht hi (by omega) (hs bit (by omega) (by omega))
      (by omega)
    have hblk := g.blockAt_add i bit 1
    refine ih (clearBit a i bit) (bit+1) one.accounted (one.tail ht (by omega)) (by omega) ?_
      (by omega)
    intro q h1 h2
    rw [clearBit_bitmap,hs q (by omega) (by omega),decide_eq_false (by omega)]
    rfl

theorem freeBlocksFinish_freed (g : Disk) (a a' : Alloc) (i bit block n : ℕ) (h : Accounted g a)
    (ht : TailSet g a) (hi : i<g.groupsCount) (hb : bit+n≤g.blocksPerGroup)
    (hs : ∀ q,bit≤q → q<bit+n → a.bitmap i q=true) (hv : g.blockAt i bit+n≤g.blocksCount)
    (hf : freeBlocksFinish g a i bit block n=some a') : Freed g a a' i bit n := by
  have hl := clearLoop_freed g a i bit n h ht hi hb hs hv
  unfold freeBlocksFinish at hf
  split at hf
  · cases hf
  · cases hf
    exact ⟨⟨hl.accounted.group,hl.accounted.total⟩,hl.bits⟩

end Ext2fsX.Balloc
