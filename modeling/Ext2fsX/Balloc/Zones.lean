import Ext2fsX.Balloc.Ranges

namespace Ext2fsX.Balloc

open Framework

variable (g : Disk) (a : Alloc)

/-- A call of `ext2_free_blocks`; `none` is a panic. -/
def freeBlocks (block count : ℕ) : Option Alloc :=
  match freeBlocksRange g block count with
  | .returned => some a
  | .group i bit n => if i<g.groupsCount then freeBlocksFinish g a i bit block n else none
  | .boundary => none
  | .trap => none

/-- What `ext2_check_descriptors` asks of the descriptor of group `i`. -/
structure Disk.Accepted (i : ℕ) : Prop where
  blockBitmap : g.blockAt i 0≤g.blockBitmap i ∧ g.blockBitmap i<g.blockAt i 0+g.blocksPerGroup
  inodeBitmap : g.blockAt i 0≤g.inodeBitmap i ∧ g.inodeBitmap i<g.blockAt i 0+g.blocksPerGroup
  inodeTable : g.blockAt i 0≤g.inodeTable i ∧
    g.inodeTable i+g.itpg<g.blockAt i 0+g.blocksPerGroup

structure Disk.InGroup (i block count : ℕ) : Prop where
  first : g.firstDataBlock≤block
  last : block+count≤g.blocksCount
  group : i=g.groupOf block ∧ i<g.groupsCount
  bits : g.bitOf block+count≤g.blocksPerGroup

def KeepsZones (i : ℕ) (a a' : Alloc) : Prop :=
  ∀ b,g.System i b → a.bitmap i (g.bitOf b)=true → a'.bitmap i (g.bitOf b)=true

/-- The whole inode table is inside, with blocks to spare on both sides, and neither of the bitmaps;
some block of the table is marked used. -/
structure Swallows (i block count : ℕ) : Prop where
  before : block<g.inodeTable i
  behind : g.inodeTable i+g.itpg<block+count
  blockBitmap : ¬(block≤g.blockBitmap i ∧ g.blockBitmap i<block+count)
  inodeBitmap : ¬(block≤g.inodeBitmap i ∧ g.inodeBitmap i<block+count)
  used : ∃ b,g.inodeTable i≤b ∧ b<g.inodeTable i+g.itpg ∧ a.bitmap i (g.bitOf b)=true

variable {b j k n : ℕ} {a' : Alloc}

theorem Disk.Accepted.system {g : Disk} {i : ℕ} (h : g.Accepted i) (hs : g.System i b) :
    g.groupOf b=i ∧ g.firstDataBlock≤b := by
  have hin : g.blockAt i 0≤b ∧ b<g.blockAt i 0+g.blocksPerGroup := by
    have h1 := h.blockBitmap
    have h2 := h.inodeBitmap
    have h3 := h.inodeTable
    rcases hs with hs | hs | hs <;> omega
  have ho := (g.of_blockAt i (0+(b-g.blockAt i 0)) (by omega)).1
  rw [← g.blockAt_add,Nat.add_sub_cancel' hin.1] at ho
  exact ⟨ho,(Nat.le_add_left _ _).trans hin.1⟩

theorem inRange_iff (b first len : ℕ) (hpos : 0<len) (hlt : first+len≤2^64) :
    inRange b first len=true ↔ first≤b ∧ b<first+len := by
  unfold inRange
  rw [show first+len+2^64-1=2^64+(first+len-1) by omega,Nat.add_mod_left,
    Nat.mod_eq_of_lt (by omega),Bool.and_eq_true,decide_eq_true_eq,decide_eq_true_eq]
  omega

theorem freeBlocksFinish_none_iff (i bit block count : ℕ) :
    freeBlocksFinish g a i bit block count=none ↔
      inRange (g.blockBitmap i) block count=true ∨ inRange (g.inodeBitmap i) block count=true ∨
      inRange block (g.inodeTable i) g.itpg=true ∨
      inRange ((block+count+2^64-1)%2^64) (g.inodeTable i) g.itpg=true := by
  unfold freeBlocksFinish
  split
  · rename_i hz
    exact iff_of_true rfl hz
  · rename_i hz
    exact iff_of_false (by simp) hz

namespace Disk.InGroup

variable {g : Disk} {i block count : ℕ}

section

variable (h : g.InGroup i block count)

include h

theorem freeBlocks_eq (a : Alloc) :
    freeBlocks g a block count=freeBlocksFinish g a i (g.bitOf block) block count := by
  have hc := g.count_lt
  have hf := h.first
  have hl := h.last
  have hb := h.bits
  have hbpg := g.bpg_lt
  have hi : g.groupOf block<2^32 := by
    exact (Nat.div_le_self _ _).trans_lt (by omega)
  unfold freeBlocks freeBlocksRange
  rw [if_neg (by rw [Nat.mod_eq_of_lt (by omega)]; omega),
    if_neg (by rw [Nat.mod_eq_of_lt (by omega)]; omega),Nat.mod_eq_of_lt hi,← h.group.1]
  dsimp only
  rw [if_pos h.group.2]

theorem bitmap_eq {a a' : Alloc} (hf : freeBlocks g a block count=some a') {b : ℕ}
    (hb : g.groupOf b=i ∧ g.firstDataBlock≤b) :
    a'.bitmap i (g.bitOf b)=(a.bitmap i (g.bitOf b) && !decide (block≤b ∧ b<block+count)) := by
  rw [h.freeBlocks_eq] at hf
  unfold freeBlocksFinish at hf
  split at hf
  · cases hf
  · cases hf
    rw [clearLoop_bitmap]
    simp [g.bits_iff h.first hb.2 (hb.1.trans h.group.1) count]

theorem panics_iff (hacc : g.Accepted i) (hpos : 0 < count) (htable : 0<g.itpg) (a : Alloc) :
    freeBlocks g a block count=none ↔ (block≤g.blockBitmap i ∧ g.blockBitmap i<block+count) ∨
      (block≤g.inodeBitmap i ∧ g.inodeBitmap i<block+count) ∨
      (g.inodeTable i≤block ∧ block<g.inodeTable i+g.itpg) ∨
      (g.inodeTable i≤block+count-1 ∧ block+count-1<g.inodeTable i+g.itpg) := by
  have hc := g.count_lt
  have hl := h.last
  have ht := hacc.inodeTable
  have hbpg := g.bpg_lt
  have hbase : g.blockAt i 0≤g.blocksCount := by
    have hat := g.blockAt_of block h.first
    rw [← h.group.1] at hat
    unfold Disk.blockAt at hat ⊢
    omega
  have hmod : (block+count+2^64-1)%2^64=block+count-1 := by
    rw [show block+count+2^64-1=2^64+(block+count-1) by omega,Nat.add_mod_left,
      Nat.mod_eq_of_lt (by omega)]
  rw [h.freeBlocks_eq,freeBlocksFinish_none_iff,hmod,inRange_iff _ _ _ hpos (by omega),
    inRange_iff _ _ _ hpos (by omega),inRange_iff _ _ _ htable (by omega),
    inRange_iff _ _ _ htable (by omega)]

end

end Disk.InGroup

theorem freeBlocks_keepsZones_iff (i block count : ℕ)
    (h : g.InGroup i block count) (hacc : g.Accepted i) :
    (∀ a',freeBlocks g a block count=some a' → KeepsZones g i a a') ↔
      ¬Swallows g a i block count := by
  constructor
  · intro hkeep hs
    obtain ⟨b,hb1,hb2,hused⟩ := hs.used
    have h1 := hs.before
    have h2 := hs.behind
    have hat := hacc.system (.inr (.inr ⟨hb1,hb2⟩))
    cases hf : freeBlocks g a block count with
    | none =>
      rw [h.panics_iff hacc (by omega) (by omega)] at hf
      rcases hf with hf | hf | hf | hf
      · exact hs.blockBitmap hf
      · exact hs.inodeBitmap hf
      · omega
      · omega
    | some a' =>
      have hset := hkeep a' hf b (.inr (.inr ⟨hb1,hb2⟩)) hused
      rw [h.bitmap_eq hf hat,decide_eq_true (by omega : block≤b ∧ b<block+count)] at hset
      simp at hset
  · intro hn a' hf b hsys hused
    rw [h.bitmap_eq hf (hacc.system hsys),hused]
    by_contra hcleared
    have hin : block≤b ∧ b<block+count := by
      by_contra hout
      simp [hout] at hcleared
    have hitpg : g.System i b → ¬(b=g.blockBitmap i ∨ b=g.inodeBitmap i) → 0<g.itpg := by
      rintro (hs | hs | hs) hno <;> omega
    by_cases htable : 0<g.itpg
    · have hnp : ¬freeBlocks g a block count=none := by simp [hf]
      rw [h.panics_iff hacc (by omega) htable] at hnp
      rcases hsys with rfl | rfl | ht
      · exact hnp (.inl hin)
      · exact hnp (.inr (.inl hin))
      · exact hn ⟨by omega,by omega,fun hc => hnp (.inl hc),fun hc => hnp (.inr (.inl hc)),
          b,ht.1,ht.2,hused⟩
    · -- without a table only the tests for the bitmaps matter
      have hnp : ¬freeBlocks g a block count=none := by simp [hf]
      have hc := g.count_lt
      have hl := h.last
      have hb : b=g.blockBitmap i ∨ b=g.inodeBitmap i := by
        by_contra hno
        exact htable (hitpg hsys hno)
      rw [h.freeBlocks_eq,freeBlocksFinish_none_iff,inRange_iff _ _ _ (by omega) (by omega),
        inRange_iff _ _ _ (by omega) (by omega)] at hnp
      rcases hb with rfl | rfl
      · exact hnp (.inl hin)
      · exact hnp (.inr (.inl hin))

def ZoneTest (i tmp : ℕ) : Prop :=
  tmp=g.blockBitmap i ∨ tmp=g.inodeBitmap i ∨
    (g.inodeTable i≤tmp ∧ inRange (signExtend tmp) (g.inodeTable i) g.itpg=true)

deriving instance Decidable for ZoneTest

/-- Bits `j` to `j+n` of group `i` are clear, the block of bit `j` passes the test, and `n` is a
possible window. -/
structure Takes (pre : Bool) (i j n : ℕ) : Prop where
  group : i<g.groupsCount ∧ 0<a.bgFree i
  inside : j+n<g.blocksPerGroup
  valid : g.Valid (g.blockAt i j)
  clear : ∀ q,j≤q → q≤j+n → a.bitmap i q=false
  passes : ¬ZoneTest g i (g.blockAt i j)
  length : n ≤ if pre then preallocGoal g-1 else 0

/-- The search in the last word of the bitmap, from a goal in the group on, ends behind the group with
the clear bit `j`. -/
structure Strays (i j : ℕ) : Prop where
  group : i<g.groupsCount ∧ 0<a.bgFree i
  beyond : g.blocksPerGroup≤j ∧ j<(g.blocksPerGroup+62)/64*64
  set : ∀ q,g.blocksPerGroup≤q+1 → q<j → a.bitmap i q=true
  clear : a.bitmap i j=false
  passes : ¬ZoneTest g i (g.blockAt i j)
  volume : g.blockAt i j<g.blocksCount

def behind (pre : Bool) (i j : ℕ) : ℕ × (ℕ → Bool) :=
  let bits := Function.update (a.bitmap i) j true
  if pre then prealloc g.blocksPerGroup (preallocGoal g-1) (j+1) bits else (0,bits)

theorem prealloc_le (bpg n p : ℕ) (bits : ℕ → Bool) : (prealloc bpg n p bits).1≤n := by
  induction n generalizing p bits with
  | zero => exact Nat.le_refl 0
  | succ n ih =>
    unfold prealloc
    split
    · exact Nat.zero_le _
    · split
      · exact Nat.zero_le _
      · exact Nat.succ_le_succ (ih _ _)

theorem prealloc_ge (bpg n p : ℕ) (bits : ℕ → Bool) (m : ℕ) (hm : m≤n) (hin : p+m≤bpg)
    (hc : ∀ q,p≤q → q<p+m → bits q=false) : m≤(prealloc bpg n p bits).1 := by
  induction n generalizing p bits m with
  | zero => omega
  | succ n ih =>
    cases m with
    | zero => exact Nat.zero_le _
    | succ m =>
      unfold prealloc
      rw [if_neg (by omega),if_neg (by simp [hc p (by omega) (by omega)])]
      refine Nat.succ_le_succ (ih (p+1) _ m (by omega) (by omega) ?_)
      intro q h1 h2
      rw [Function.update_of_ne (by omega)]
      exact hc q (by omega) (by omega)

theorem behind_spec (pre : Bool) (i j : ℕ) (hj : j<g.blocksPerGroup) (hc : a.bitmap i j=false) :
    (behind g a pre i j).1≤(if pre then preallocGoal g-1 else 0) ∧
      j+(behind g a pre i j).1<g.blocksPerGroup ∧
      ∀ q,j≤q → q≤j+(behind g a pre i j).1 → a.bitmap i q=false := by
  cases pre with
  | false =>
    refine ⟨Nat.le_refl 0,hj,fun q h1 h2 => ?_⟩
    have hq : q=j := Nat.le_antisymm h2 h1
    exact hq ▸ hc
  | true =>
    have hw := prealloc_window g.blocksPerGroup (preallocGoal g-1) (j+1)
      (Function.update (a.bitmap i) j true) (by omega)
    refine ⟨prealloc_le _ _ _ _,?_,fun q h1 h2 => ?_⟩
    · have hin := hw.inside
      change j+(prealloc _ _ _ _).1<_
      omega
    by_cases hq : q=j
    · exact hq ▸ hc
    · have hcq := hw.clear q (by omega) (by
        change q≤j+(prealloc _ _ _ _).1 at h2
        omega)
      rwa [Function.update_of_ne hq] at hcq

theorem behind_beyond (pre : Bool) (i : ℕ) (hj : g.blocksPerGroup≤j) :
    (behind g a pre i j).1=0 := by
  unfold behind
  cases pre with
  | false => rfl
  | true =>
    dsimp only
    cases preallocGoal g-1 with
    | zero => rfl
    | succ n => rw [if_pos rfl,prealloc,if_pos (by omega)]

theorem gotBlock_got (pre : Bool) (i j : ℕ)
    (h : gotBlock g a pre i j=.got a' b n) : a.bitmap i j=false ∧
      b=g.blockAt i j%2^32 ∧ ¬ZoneTest g i b ∧ b<g.blocksCount ∧ n=(behind g a pre i j).1 := by
  unfold gotBlock at h
  dsimp only at h
  split at h
  · cases h
  rename_i hz
  split at h
  · cases h
  rename_i hc
  split at h
  · cases h
  · rename_i hb
    injection h with _ h1 h2
    rw [← h1]
    exact ⟨Bool.eq_false_iff.mpr hc,rfl,hz,by omega,h2.symm⟩

theorem gotBlock_eq (pre : Bool) {i : ℕ} (hv : g.blockAt i j<g.blocksCount)
    (hc : a.bitmap i j=false) (hz : ¬ZoneTest g i (g.blockAt i j)) :
    ∃ a',gotBlock g a pre i j=.got a' (g.blockAt i j) (behind g a pre i j).1 := by
  unfold ZoneTest at hz
  unfold gotBlock
  rw [Nat.mod_eq_of_lt (hv.trans g.count_lt),if_neg hz,if_neg (by simp [hc]),if_neg (by omega)]
  exact ⟨_,rfl⟩

/-- A goal in a group with free blocks is where the search begins. -/
theorem newBlockStart_at {i : ℕ} (hfree : 0<a.bgFree i) (hj : j<g.blocksPerGroup)
    (hv : g.Valid (g.blockAt i j)) : newBlockStart g a (g.blockAt i j)=.goal i j := by
  obtain ⟨h1,h2⟩ := g.of_blockAt i j hj
  have hclamp : clampGoal g (g.blockAt i j)=g.blockAt i j := by
    unfold clampGoal
    rw [if_neg]
    have := hv.1
    have := hv.2
    omega
  unfold newBlockStart
  rw [hclamp,h1,h2,if_pos hfree]

theorem newBlock_goal {goal : ℕ} {pre : Bool} {i : ℕ} (hstart : newBlockStart g a goal=.goal i j)
    (hgoal : goalSearch g.blocksPerGroup (a.bitmap i) j=some k)
    (hgot : gotBlock g a pre i k=.got a' b n) (rounds : ℕ) :
    newBlock g a goal pre (rounds+1)=.block a' b n := by
  unfold newBlock attempt
  rw [hstart]
  dsimp only
  rw [hgoal]
  dsimp only
  rw [hgot]
  rfl

theorem Takes.newBlock_eq {g : Disk} {a : Alloc} {pre : Bool} {i : ℕ}
    (h : Takes g a pre i j n) (rounds : ℕ) :
    ∃ a',newBlock g a (g.blockAt i j) pre (rounds+1)=
      .block a' (g.blockAt i j) (behind g a pre i j).1 := by
  have hin := h.inside
  have hc := h.clear j (Nat.le_refl j) (Nat.le_add_right j n)
  have hgoal : goalSearch g.blocksPerGroup (a.bitmap i) j=some j := by
    unfold goalSearch
    simp [hc]
  obtain ⟨a',hgot⟩ := gotBlock_eq g a pre h.valid.2 hc h.passes
  exact ⟨a',newBlock_goal g a (newBlockStart_at g a h.group.2 (by omega) h.valid) hgoal hgot rounds⟩

theorem Strays.newBlock_eq {g : Disk} {a : Alloc} {i : ℕ} (h : Strays g a i j) (pre : Bool)
    (rounds : ℕ) : ∃ a',newBlock g a (g.blockAt i (g.blocksPerGroup-1)) pre (rounds+1)=
      .block a' (g.blockAt i j) (behind g a pre i j).1 := by
  have hpos := g.bpg_pos
  have hbeyond := h.beyond
  have hvolume := h.volume
  have hv : g.Valid (g.blockAt i (g.blocksPerGroup-1)) := by
    unfold Disk.Valid Disk.blockAt at *
    omega
  have hset := h.set (g.blocksPerGroup-1) (by omega) (by omega)
  have hgoal : goalSearch g.blocksPerGroup (a.bitmap i) (g.blocksPerGroup-1)=some j := by
    have hend : (g.blocksPerGroup-1+63)/64*64=(g.blocksPerGroup+62)/64*64 := by omega
    have hnear := findNextZeroBit_near (a.bitmap i) (g.blocksPerGroup-1)
    have hle := ffz_le_clear (a.bitmap i) (g.blocksPerGroup-1)
      ((g.blocksPerGroup-1+63)/64*64-(g.blocksPerGroup-1)) j (by omega) h.clear
    have hclear := ffz_clear (a.bitmap i) (g.blocksPerGroup-1)
      ((g.blocksPerGroup-1+63)/64*64-(g.blocksPerGroup-1)) (by omega)
    rw [← hnear] at hle hclear
    have hge := findNextZeroBit_ge (a.bitmap i) ((g.blocksPerGroup-1+63)/64*64) (g.blocksPerGroup-1)
    have hj : findNextZeroBit (a.bitmap i) ((g.blocksPerGroup-1+63)/64*64) (g.blocksPerGroup-1)=j := by
      by_contra hne
      rw [h.set _ (by omega) (by omega)] at hclear
      cases hclear
    unfold goalSearch
    simp only [hset,Bool.not_true,Bool.false_eq_true,if_false]
    rw [if_neg (by omega : g.blocksPerGroup-1≠0),hj,if_pos ⟨by omega,by omega⟩]
  obtain ⟨a',hgot⟩ := gotBlock_eq g a pre h.volume h.clear h.passes
  exact ⟨a',newBlock_goal g a (newBlockStart_at g a h.group.2 (by omega) hv) hgoal hgot rounds⟩

theorem scanSearch_lt {bpg : ℕ} {bits : ℕ → Bool} (h : scanSearch bpg bits=some k) : k<bpg := by
  unfold scanSearch at h
  dsimp only at h
  split_ifs at h with h1 h2
  · have hk : searchBack bits 7 (memscan bits 0 (bpg/8)*8)=k := by simpa using h
    exact hk ▸ lt_of_le_of_lt (searchBack_le bits 7 _) h1
  · have hk : findFirstZeroBit bits 0 bpg=k := by simpa using h
    exact hk ▸ h2

/-- Only the search of the rest of the goal's word is not bounded by the group. -/
theorem goalSearch_lt {bpg : ℕ} {bits : ℕ → Bool} (hj : j<bpg)
    (h : goalSearch bpg bits j=some k) : k<bpg ∨
      (bpg≤k ∧ k<(bpg+62)/64*64) ∧ ∀ q,bpg≤q+1 → q<k → bits q=true := by
  unfold goalSearch at h
  by_cases hg : bits j=false
  · simp only [hg,Bool.not_false,if_true,Option.some.injEq] at h
    exact .inl (h ▸ hj)
  simp only [hg,Bool.not_true,Bool.false_eq_true,if_false] at h
  generalize hnear : (if j=0 then 0 else findNextZeroBit bits ((j+63)/64*64) j)=near at h
  split_ifs at h with h1 h2 h3
  · obtain ⟨hj0,hlt⟩ := h1
    obtain rfl : near=k := Option.some.inj h
    rw [if_neg hj0,findNextZeroBit_near] at hnear
    by_cases hin : near<bpg
    · exact .inl hin
    refine .inr ⟨⟨by omega,by omega⟩,fun q h1 h2 => ?_⟩
    have hs := ffz_set bits j _ (q-j) (by omega : q-j<ffz bits j ((j+63)/64*64-j))
    rwa [show j+(q-j)=q by omega] at hs
  · have hk : searchBack bits 7 _=k := Option.some.inj h
    exact .inl (hk ▸ lt_of_le_of_lt (searchBack_le bits 7 _) h2)
  · have hk : findNextZeroBit bits bpg _=k := Option.some.inj h
    exact .inl (hk ▸ h3)

theorem newBlock_from (goal : ℕ) (pre : Bool) (rounds : ℕ) (h : newBlock g a goal pre rounds=.block a' b n) :
    ∃ i j,(i<g.groupsCount ∧ 0<a.bgFree i) ∧ gotBlock g a pre i j=.got a' b n ∧
      (j<g.blocksPerGroup ∨ (g.blocksPerGroup≤j ∧ j<(g.blocksPerGroup+62)/64*64) ∧
        ∀ q,g.blocksPerGroup≤q+1 → q<j → a.bitmap i q=true) := by
  have hresult (r : Got) (hr : r.result=.block a' b n) : r=.got a' b n := by
    cases r with
    | got a1 b1 n1 =>
      injection hr with h1 h2 h3
      rw [h1,h2,h3]
    | _ => cases hr
  have hattempt : attempt g a goal pre=.block a' b n := by
    induction rounds with
    | zero => cases h
    | succ rounds ih =>
      unfold newBlock at h
      split at h
      · exact ih h
      · exact h
  have hr := attempt_cases g a goal pre
  rw [hattempt] at hr
  generalize he : NewBlock.block a' b n=r at hr
  cases hr with
  | got i k hi hk =>
    refine ⟨i,k,hi,hresult _ he.symm,?_⟩
    obtain hs | ⟨j,hj,hg⟩ := hk
    · exact .inl (scanSearch_lt hs)
    · exact goalSearch_lt hj hg
  | _ => cases he

/-- The blocks of the clear bits, up to the end of the last word of a bitmap, fit an `int`. -/
def Fit : Prop :=
  ∀ i<g.groupsCount,∀ j<(g.blocksPerGroup+63)/64*64,a.bitmap i j=false → g.blockAt i j<2^32

theorem newBlock_avoidsZones_iff (pre : Bool) (hacc : ∀ i<g.groupsCount,g.Accepted i)
    (hfit : Fit g a) :
    (∀ goal rounds a' b n,newBlock g a goal pre rounds=.block a' b n → ∀ k≤n,
        ∀ i<g.groupsCount,¬g.System i (b+k)) ↔
      (∀ i j n,Takes g a pre i j n → ¬g.System i (g.blockAt i (j+n))) ∧
        ∀ i j,Strays g a i j → ∀ i'<g.groupsCount,¬g.System i' (g.blockAt i j) := by
  constructor
  · refine fun hsafe => ⟨fun i j n ht hsys => ?_,fun i j hs i' hi' => ?_⟩
    · obtain ⟨a',he⟩ := ht.newBlock_eq 0
      have hge : n≤(behind g a pre i j).1 := by
        have hl := ht.length
        cases pre with
        | false => exact hl
        | true =>
          refine prealloc_ge _ _ _ _ n hl (by have := ht.inside; omega) ?_
          intro q h1 h2
          rw [Function.update_of_ne (by omega)]
          exact ht.clear q (by omega) (by omega)
      refine hsafe _ _ _ _ _ he n hge i ht.group.1 ?_
      rwa [g.blockAt_add]
    · obtain ⟨a',he⟩ := hs.newBlock_eq pre 0
      exact hsafe _ _ _ _ _ he 0 (Nat.zero_le _) i' hi'
  · rintro ⟨htake,hstray⟩ goal rounds a' b n h k hk i' hi' hsys
    obtain ⟨i,j,hi,hgot,hj⟩ := newBlock_from g a goal pre rounds h
    obtain ⟨hc,hb,hzone,hlt,hn⟩ := gotBlock_got g a pre i j hgot
    rw [Nat.mod_eq_of_lt (hfit i hi.1 j (by omega) hc)] at hb
    have hat : b+k=g.blockAt i (j+k) := by rw [hb,g.blockAt_add]
    by_cases hin : j<g.blocksPerGroup
    · obtain ⟨hlen,hw,hclear⟩ := behind_spec g a pre i j hin hc
      rw [← hn] at hlen hw hclear
      -- the zones of an accepted group are in the group
      have hsame : i'=i := by
        have h1 := ((hacc i' hi').system hsys).1
        rw [hat,(g.of_blockAt i (j+k) (by omega)).1] at h1
        exact h1.symm
      rw [hsame,hat] at hsys
      refine htake i j k ⟨hi,by omega,⟨?_,hb ▸ hlt⟩,fun q h1 h2 => hclear q h1 (by omega),
        hb ▸ hzone,hk.trans hlen⟩ hsys
      exact Nat.le_add_left _ _
    · obtain ⟨hbeyond,hset⟩ := hj.resolve_left hin
      rw [behind_beyond g a pre i hbeyond.1] at hn
      obtain rfl : k=0 := by omega
      rw [hat] at hsys
      exact hstray i j ⟨hi,hbeyond,hset,hc,hb ▸ hzone,hb ▸ hlt⟩ i' hi' hsys

/-- Which ranges are freed without clearing a bit of the zones, and when no call takes a block of
them. -/
theorem zones_kept_iff (g : Disk) (a : Alloc) (pre : Bool)
    (hacc : ∀ i<g.groupsCount,g.Accepted i) (hfit : Fit g a) :
    (∀ i block count,g.InGroup i block count →
      ((∀ a',freeBlocks g a block count=some a' → KeepsZones g i a a') ↔
        ¬Swallows g a i block count)) ∧
    ((∀ goal rounds a' b n,newBlock g a goal pre rounds=.block a' b n → ∀ k≤n,
        ∀ i<g.groupsCount,¬g.System i (b+k)) ↔
      (∀ i j n,Takes g a pre i j n → ¬g.System i (g.blockAt i (j+n))) ∧
        ∀ i j,Strays g a i j → ∀ i'<g.groupsCount,¬g.System i' (g.blockAt i j)) :=
  ⟨fun i block count h => freeBlocks_keepsZones_iff g a i block count h (hacc i h.group.2),
    newBlock_avoidsZones_iff g a pre hacc hfit⟩

theorem zones_kept_oneGroup :
    (∀ a',freeBlocks oneGroup emptyGroup.fs 20 2=some a' →
      KeepsZones oneGroup 0 emptyGroup.fs a') ∧
    ∀ goal rounds a' b n,newBlock oneGroup emptyGroup.fs goal true rounds=.block a' b n →
      ∀ k≤n,∀ i<1,¬oneGroup.System i (b+k) := by
  have hacc : ∀ i<oneGroup.groupsCount,oneGroup.Accepted i := by
    intro i hi
    have h0 : i=0 := Nat.lt_one_iff.mp hi
    subst h0
    exact ⟨by decide,by decide,by decide⟩
  have hfit : Fit oneGroup emptyGroup.fs := by
    intro i hi j hj _
    change i<1 at hi
    change j<64 at hj
    change j+i*64+1<2^32
    omega
  obtain ⟨hfree,hnew⟩ := zones_kept_iff oneGroup emptyGroup.fs true hacc hfit
  constructor
  · refine (hfree 0 20 2 ⟨by decide,by decide,⟨by decide,by decide⟩,by decide⟩).mpr ?_
    intro hs
    exact absurd hs.before (by decide)
  · refine hnew.mpr ⟨fun i j n ht hsys => ?_,fun i j hs => ?_⟩
    rotate_left
    · have := hs.beyond
      change 64≤j ∧ j<64 at this
      omega
    have hc := ht.clear (j+n) (by omega) (Nat.le_refl _)
    have hj : ¬j+n<4 := of_decide_eq_false hc
    have hb : oneGroup.blockAt i (j+n)=j+n+i*64+1 := rfl
    rw [hb] at hsys
    rcases hsys with hs | hs | hs <;> simp only [oneGroup] at hs <;> omega

def Disk.withTable (first : ℕ) : Disk := { g with inodeTable := fun _ => first }

def tableApart : Disk := oneGroup.withTable 10

def apartBits (table : Bool) : Alloc where
  bitmap _ j := j=0 || j=1 || j=8 && table || (j=9 || j=10) && table || j=11 && table
  bgFree _ := if table then 58 else 62
  sFree := if table then 58 else 62
  descDirty _ := false
  sDirt := false

/-- Two groups of 72 blocks, each with its bitmaps and its table in front. -/
def narrowDisk : Disk where
  firstDataBlock := 1
  blocksCount := 145
  blocksPerGroup := 72
  groupsCount := 2
  descPerBlock := 32
  itpg := 2
  preallocBlocks := 8
  blockBitmap i := 72*i+1
  inodeBitmap i := 72*i+2
  inodeTable i := 72*i+3
  first_lt := by decide
  count_lt := by decide
  bpg_pos := Nat.succ_pos 71
  bpg_lt := by decide
  groups_eq := by decide

def strayBits : Alloc where
  bitmap _ j := j≠20 && j≠72
  bgFree _ := 1
  sFree := 2
  descDirty _ := false
  sDirt := false

/-- The range from 9 to 12 is freed with the table inside; with the bits of the table clear, block 9
is returned with the table as its window; and the search from block 71 on returns the block bitmap
of the next group, whose bit is behind the first group. -/
theorem table_freed_and_taken :
    tableApart.Accepted 0 ∧ tableApart.InGroup 0 9 4 ∧
    (∃ a',freeBlocks tableApart (apartBits true) 9 4=some a' ∧
      (apartBits true).bitmap 0 (tableApart.bitOf 10)=true ∧
      a'.bitmap 0 (tableApart.bitOf 10)=false) ∧
    (∃ a',newBlock tableApart (apartBits false) 9 true 1=.block a' 9 2 ∧
      tableApart.System 0 10 ∧ tableApart.System 0 11) ∧
    (∀ i<2,narrowDisk.Accepted i) ∧
    ∃ a',newBlock narrowDisk strayBits 71 false 1=.block a' 73 0 ∧ narrowDisk.System 1 73 := by
  refine ⟨⟨by decide,by decide,by decide⟩,
    ⟨by decide,by decide,⟨by decide,by decide⟩,by decide⟩,⟨_,rfl,by decide,by decide +kernel⟩,
    ⟨_,rfl,.inr (.inr ⟨by decide,by decide⟩),.inr (.inr ⟨by decide,by decide⟩)⟩,?_,⟨_,rfl,.inl rfl⟩⟩
  intro i hi
  obtain rfl | rfl : i=0 ∨ i=1 := by omega
  · exact ⟨by decide,by decide,by decide⟩
  · exact ⟨by decide,by decide,by decide⟩

end Ext2fsX.Balloc
