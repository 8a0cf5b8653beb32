import Ext2fsX.Balloc.NewBlock

namespace Ext2fsX.Balloc

open Framework

/-- A division by zero in the caller, the return from the test of the data zone, the panic on a
range across a group boundary, or the group index handed to `load_block_bitmap` with the first bit
and the number of bits to clear. -/
inductive Touched where
  | trap
  | returned
  | boundary
  | group (i bit count : ℕ)
  deriving DecidableEq

variable (g : Disk) (block count : ℕ)

/-- The tests in `unsigned long` arithmetic; the group index is passed on as an `unsigned int`. -/
def freeBlocksRange : Touched :=
  if block<g.firstDataBlock ∨ g.blocksCount<(block+count)%2^64 then .returned
  else if g.blocksPerGroup<(g.bitOf block+count)%2^64 then .boundary
  else .group (g.groupOf block%2^32) (g.bitOf block) count

/-- The pointer sign-extended, and the size, converted to `unsigned long`, in fragments. -/
def blkfreeBlock (bno : UInt32) : ℕ := signExtend bno.toNat

def blkfreeCount (fsize : UInt64) (size : Int64) : ℕ := size.toUInt64.toNat/fsize.toNat

def blkfree (fsize : UInt64) (bno : UInt32) (size : Int64) : Touched :=
  if fsize=0 then .trap else freeBlocksRange g (blkfreeBlock bno) (blkfreeCount fsize size)

def discardPrealloc (preallocBlock preallocCount : UInt32) : Touched :=
  if preallocCount=0 then .returned
  else freeBlocksRange g preallocBlock.toNat preallocCount.toNat

/-- Nothing changed, or the range is one of the data zone, without wrap-around and in one group. -/
def Touched.Within : Touched → Prop
  | .trap => False
  | .returned => True
  | .boundary => g.firstDataBlock≤block ∧ block+count≤g.blocksCount
  | .group i bit n =>
    g.firstDataBlock≤block ∧ block+count≤g.blocksCount ∧ n=count ∧ i<g.groupsCount ∧
      bit+n≤g.blocksPerGroup ∧ ∀ k<n,g.blockAt i (bit+k)=block+k

/-- An empty range right behind the last block, where that block ends its group. -/
def PastEnd : Prop :=
  count=0 ∧ block=g.blocksCount ∧ g.blocksPerGroup∣g.blocksCount-g.firstDataBlock

namespace Disk

theorem groupOf_count_lt (g : Disk) :
    g.groupOf g.blocksCount<g.groupsCount ↔ ¬g.blocksPerGroup∣g.blocksCount-g.firstDataBlock := by
  have hpos := g.bpg_pos
  unfold groupOf
  rw [g.groups_eq]
  set d := g.blocksCount-g.firstDataBlock with hd
  constructor
  · rintro hlt ⟨q,hq⟩
    have hup : (g.blocksPerGroup*q+g.blocksPerGroup-1)/g.blocksPerGroup=q := by
      rw [show g.blocksPerGroup*q+g.blocksPerGroup-1=(g.blocksPerGroup-1)+g.blocksPerGroup*q by
          omega,Nat.add_mul_div_left _ _ hpos,Nat.div_eq_of_lt (by omega),Nat.zero_add]
    rw [hq,hup,Nat.mul_div_cancel_left _ hpos] at hlt
    omega
  · intro hnd
    have hdiv := Nat.div_add_mod d g.blocksPerGroup
    rw [Nat.lt_iff_add_one_le,Nat.le_div_iff_mul_le hpos,Nat.add_mul,Nat.mul_comm]
    omega

theorem groupOf_lt_iff (g : Disk) (b : ℕ) (hb : b≤g.blocksCount) (hfirst : g.firstDataBlock≤b) :
    g.groupOf b<g.groupsCount ↔
      ¬(b=g.blocksCount ∧ g.blocksPerGroup∣g.blocksCount-g.firstDataBlock) := by
  by_cases he : b=g.blocksCount
  · subst he
    rw [g.groupOf_count_lt]
    simp
  · have hv : g.Valid b := ⟨hfirst,by omega⟩
    simp [he,g.groupOf_lt b hv]

end Disk

theorem freeBlocksRange_small (h : block+count<2^64) :
    (freeBlocksRange g block count).Within g block count ↔ ¬PastEnd g block count := by
  have hcount := g.count_lt
  have hbpg := g.bpg_lt
  have hbit := g.bitOf_lt block
  unfold freeBlocksRange PastEnd
  rw [Nat.mod_eq_of_lt h]
  by_cases hin : block<g.firstDataBlock ∨ g.blocksCount<block+count
  · rw [if_pos hin]
    refine iff_of_true trivial ?_
    rintro ⟨hc,hb,-⟩
    have := g.first_lt
    omega
  rw [if_neg hin,Nat.mod_eq_of_lt (by omega)]
  have hgroup : g.groupOf block<2^32 := by
    exact (Nat.div_le_self _ _).trans_lt (by omega)
  by_cases hcross : g.blocksPerGroup<g.bitOf block+count
  · rw [if_pos hcross]
    exact iff_of_true ⟨by omega,by omega⟩ (fun hc => by omega)
  rw [if_neg hcross,Nat.mod_eq_of_lt hgroup]
  have hat := g.blockAt_of block (by omega)
  have hlt := g.groupOf_lt_iff block (by omega) (by omega)
  constructor
  · rintro ⟨-,-,-,hi,-⟩ ⟨-,hb,hd⟩
    exact hlt.mp hi ⟨hb,hd⟩
  intro hn
  refine ⟨by omega,by omega,rfl,?_,by omega,?_⟩
  · rw [hlt]
    rintro ⟨hb,hd⟩
    exact hn ⟨by omega,hb,hd⟩
  · intro k _
    unfold Disk.blockAt at hat ⊢
    omega

theorem freeBlocksRange_wraps (hb : block<2^64) (hc : count<2^64) (h : 2^64≤block+count) :
    (freeBlocksRange g block count).Within g block count ↔
      block<g.firstDataBlock ∨ g.blocksCount<block+count-2^64 := by
  have hcount := g.count_lt
  have hmod : (block+count)%2^64=block+count-2^64 := by
    rw [Nat.mod_eq_sub_mod h,Nat.mod_eq_of_lt (by omega)]
  by_cases hout : block<g.firstDataBlock ∨ g.blocksCount<block+count-2^64
  · have hr : freeBlocksRange g block count=.returned := by
      unfold freeBlocksRange
      rw [hmod,if_pos hout]
    rw [hr]
    exact iff_of_true trivial hout
  · refine iff_of_false ?_ hout
    unfold freeBlocksRange
    rw [hmod,if_neg hout]
    split <;> unfold Touched.Within <;> omega

theorem blkfreeBlock_lt (bno : UInt32) : blkfreeBlock bno<2^64 := by
  have := bno.toNat_lt
  unfold blkfreeBlock signExtend
  split <;> omega

theorem blkfreeCount_lt (fsize : UInt64) (size : Int64) : blkfreeCount fsize size<2^64 :=
  (Nat.div_le_self _ _).trans_lt size.toUInt64.toNat_lt

/-- `ext2_blkfree` keeps to the data zone exactly when the sign-extended pointer and the count do
not wrap around; `ext2_discard_prealloc` does so with every window. -/
theorem blkfree_within_iff (g : Disk) (fsize : UInt64) (bno : UInt32) (size : Int64) :
    ((blkfree g fsize bno size).Within g (blkfreeBlock bno) (blkfreeCount fsize size) ↔
      fsize≠0 ∧ ¬PastEnd g (blkfreeBlock bno) (blkfreeCount fsize size) ∧
        (2^64≤blkfreeBlock bno+blkfreeCount fsize size → blkfreeBlock bno<g.firstDataBlock ∨
          g.blocksCount<blkfreeBlock bno+blkfreeCount fsize size-2^64)) ∧
    ∀ block count : UInt32,
      (discardPrealloc g block count).Within g block.toNat count.toNat := by
  constructor
  · have hb := blkfreeBlock_lt bno
    have hc := blkfreeCount_lt fsize size
    unfold blkfree
    by_cases hf : fsize=0
    · rw [if_pos hf]
      exact iff_of_false id (fun h => h.1 hf)
    rw [if_neg hf]
    by_cases hw : blkfreeBlock bno+blkfreeCount fsize size<2^64
    · rw [freeBlocksRange_small g _ _ hw]
      constructor
      · exact fun h => ⟨hf,h,fun hc => by omega⟩
      · exact fun h => h.2.1
    · rw [freeBlocksRange_wraps g _ _ hb hc (by omega)]
      constructor
      · refine fun h => ⟨hf,fun hp => ?_,fun _ => h⟩
        unfold PastEnd at hp
        omega
      · exact fun h => h.2.2 (by omega)
  · intro block count
    have hb := block.toNat_lt
    have hc := count.toNat_lt
    unfold discardPrealloc
    by_cases h0 : count=0
    · rw [if_pos h0]
      trivial
    · rw [if_neg h0,freeBlocksRange_small g _ _ (by omega)]
      rintro ⟨hz,-⟩
      exact h0 (UInt32.toNat.inj hz)

/-- The sum is 0, so the test passes, and a group that does not exist is asked for. -/
theorem blkfree_last_pointer :
    blkfree oneGroup 1024 0xffffffff 1024=.group 0xffffffff 62 1 ∧
      ¬(blkfree oneGroup 1024 0xffffffff 1024).Within oneGroup
        (blkfreeBlock 0xffffffff) (blkfreeCount 1024 1024) := by
  have he : blkfree oneGroup 1024 0xffffffff 1024=.group 0xffffffff 62 1 := by decide +kernel
  refine ⟨he,?_⟩
  rintro ⟨-,-,-,hi,-⟩
  exact absurd hi (by decide)

end Ext2fsX.Balloc
