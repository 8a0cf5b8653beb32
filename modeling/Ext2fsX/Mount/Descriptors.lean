import Ext2fsX.Mount.Attributes

namespace Ext2fsX.Mount

/-- As it goes through the descriptor blocks: `gdp` is a place in one of them. -/
def checkLoop (env : Env) (fs : Fs) : ℕ → ℕ → ℕ → ℕ × ℕ → ℕ → ℕ → Option ℕ
  | 0,_,_,_,_,dirs => some dirs
  | n+1,i,descBlock,gdp,block,dirs =>
    let gdp := if i%fs.descPerBlock=0 then (descBlock,0) else gdp
    let descBlock := if i%fs.descPerBlock=0 then descBlock+1 else descBlock
    if inGroup fs (env.desc gdp.1 gdp.2) block then
      checkLoop env fs n (i+1) descBlock (gdp.1,gdp.2+1) (block+fs.bpg)
        (dirs+(env.desc gdp.1 gdp.2).usedDirsCount.toNat)
    else none

/-- `ext2_check_descriptors`: what it leaves in `s_dircount` where it returns 1. -/
def checkAll (env : Env) (es : Superblock) (fs : Fs) : Option ℕ :=
  checkLoop env fs fs.groupsCount 0 0 (0,0) es.firstDataBlock.toNat 0

def groupStart (es : Superblock) (fs : Fs) (i : ℕ) : ℕ := es.firstDataBlock.toNat+i*fs.bpg

/-- The bitmaps and the whole table of inodes are in the group and in the volume. -/
structure Inside (es : Superblock) (fs : Fs) (d : Descriptor) (i : ℕ) : Prop where
  starts : groupStart es fs i≤d.blockBitmap.toNat ∧ groupStart es fs i≤d.inodeBitmap.toNat ∧
    groupStart es fs i≤d.inodeTable.toNat
  group : d.blockBitmap.toNat<groupStart es fs (i+1) ∧ d.inodeBitmap.toNat<groupStart es fs (i+1) ∧
    d.inodeTable.toNat+fs.tableBlocks≤groupStart es fs (i+1)
  volume : d.blockBitmap<es.blocksCount ∧ d.inodeBitmap<es.blocksCount ∧
    d.inodeTable.toNat+fs.tableBlocks≤es.blocksCount.toNat

/-- The check accepts exactly the descriptors that are all in place, and counts the directories. -/
structure Exact (env : Env) (es : Superblock) (fs : Fs) : Prop where
  accepts : (∃ dirs,checkAll env es fs=some dirs) ↔
    ∀ i<fs.groupsCount,Inside es fs (getGroupDesc env fs i) i
  counts : ∀ dirs,checkAll env es fs=some dirs →
    dirs=((List.range fs.groupsCount).map
      (fun i => (getGroupDesc env fs i).usedDirsCount.toNat)).sum

theorem checkLoop_eq {env : Env} {fs : Fs} (hd : 0<fs.descPerBlock)
    (n i descBlock : ℕ) (gdp : ℕ × ℕ) (block dirs : ℕ)
    (h0 : i%fs.descPerBlock=0 → descBlock=i/fs.descPerBlock)
    (h1 : i%fs.descPerBlock≠0 → descBlock=i/fs.descPerBlock+1 ∧
      gdp=(i/fs.descPerBlock,i%fs.descPerBlock)) :
    checkLoop env fs n i descBlock gdp block dirs=checkDescriptors env fs n i block dirs := by
  induction n generalizing i descBlock gdp block dirs with
  | zero => rfl
  | succ n ih =>
    unfold checkLoop checkDescriptors
    have hgdp : (if i%fs.descPerBlock=0 then (descBlock,0) else gdp)=
        (i/fs.descPerBlock,i%fs.descPerBlock) := by
      split_ifs with h
      · rw [h0 h,h]
      · exact (h1 h).2
    have hblock : (if i%fs.descPerBlock=0 then descBlock+1 else descBlock)=i/fs.descPerBlock+1 := by
      split_ifs with h
      · rw [h0 h]
      · exact (h1 h).1
    dsimp only
    rw [hgdp,hblock]
    congr 1
    -- the next descriptor is the next of its block, or the first of the next block
    all_goals
      have hdm := Nat.div_add_mod i fs.descPerBlock
      have hlt := Nat.mod_lt i hd
      by_cases hend : i%fs.descPerBlock+1<fs.descPerBlock
      · obtain ⟨hq,hr⟩ := (Nat.div_mod_unique hd).mpr
          ⟨(by omega : i%fs.descPerBlock+1+fs.descPerBlock*(i/fs.descPerBlock)=i+1),hend⟩
        simp_all
      · obtain ⟨hq,hr⟩ := (Nat.div_mod_unique hd).mpr ⟨(by rw [Nat.mul_succ]; omega :
            0+fs.descPerBlock*(i/fs.descPerBlock+1)=i+1),hd⟩
        simp_all

variable (es : Superblock)

theorem inGroup_iff (fs : Fs) (d : Descriptor) (i : ℕ) :
    inGroup fs d (es.firstDataBlock.toNat+i*fs.bpg)=true ↔
      (groupStart es fs i≤d.blockBitmap.toNat ∧ d.blockBitmap.toNat<groupStart es fs (i+1)) ∧
      (groupStart es fs i≤d.inodeBitmap.toNat ∧ d.inodeBitmap.toNat<groupStart es fs (i+1)) ∧
      groupStart es fs i≤d.inodeTable.toNat ∧
        d.inodeTable.toNat+fs.itpg<groupStart es fs (i+1) := by
  simp only [inGroup,Bool.and_eq_true,decide_eq_true_eq,groupStart,Nat.succ_mul,Nat.add_assoc,
    and_assoc]

theorem exact_iff {env : Env} {es : Superblock} {fs : Fs} (hd : 0<fs.descPerBlock) :
    Exact env es fs ↔
      ((∀ i<fs.groupsCount,inGroup fs (getGroupDesc env fs i) (es.firstDataBlock.toNat+i*fs.bpg)=true) ↔
        ∀ i<fs.groupsCount,Inside es fs (getGroupDesc env fs i) i) := by
  have hcheck (r : ℕ) : checkDescriptors env fs fs.groupsCount 0 es.firstDataBlock.toNat 0=some r ↔ _ :=
    checkDescriptors_eq_some ..
  simp only [Nat.zero_add] at hcheck
  have hall (r : ℕ) : checkAll env es fs=some r ↔ _ :=
    (checkLoop_eq hd _ 0 0 _ _ _ (by simp) (by simp) ▸ hcheck r)
  have hsome : (∃ r,checkAll env es fs=some r) ↔ ∀ i<fs.groupsCount,
      inGroup fs (getGroupDesc env fs i) (es.firstDataBlock.toNat+i*fs.bpg)=true := by
    simp [hall]
  rw [← hsome]
  exact ⟨fun h => h.accepts,fun h => ⟨h,fun r hr => ((hall r).mp hr).2⟩⟩

/-- Both bitmaps and the first block of the table are in the group. -/
structure Starts (es : Superblock) (fs : Fs) (d : Descriptor) (i : ℕ) : Prop where
  blockBitmap : groupStart es fs i≤d.blockBitmap.toNat ∧ d.blockBitmap.toNat<groupStart es fs (i+1)
  inodeBitmap : groupStart es fs i≤d.inodeBitmap.toNat ∧ d.inodeBitmap.toNat<groupStart es fs (i+1)
  inodeTable : groupStart es fs i≤d.inodeTable.toNat

/-- A table of `e2fs_itpg` blocks leaves the last block of the group free. -/
def Leaves (es : Superblock) (fs : Fs) (d : Descriptor) (i : ℕ) : Prop :=
  d.inodeTable.toNat+fs.itpg<groupStart es fs (i+1)

/-- The table with all its blocks ends in the group and in the volume, which holds the bitmaps. -/
structure Fits (es : Superblock) (fs : Fs) (d : Descriptor) (i : ℕ) : Prop where
  group : d.inodeTable.toNat+fs.tableBlocks≤groupStart es fs (i+1)
  volume : d.blockBitmap<es.blocksCount ∧ d.inodeBitmap<es.blocksCount ∧
    d.inodeTable.toNat+fs.tableBlocks≤es.blocksCount.toNat

theorem inGroup_starts (fs : Fs) (d : Descriptor) (i : ℕ) :
    inGroup fs d (es.firstDataBlock.toNat+i*fs.bpg)=true ↔ Starts es fs d i ∧ Leaves es fs d i := by
  rw [inGroup_iff]
  exact ⟨fun ⟨hb,hi,ht,hl⟩ => ⟨⟨hb,hi,ht⟩,hl⟩,fun ⟨⟨hb,hi,ht⟩,hl⟩ => ⟨hb,hi,ht,hl⟩⟩

theorem inside_starts (fs : Fs) (d : Descriptor) (i : ℕ) :
    Inside es fs d i ↔ Starts es fs d i ∧ Fits es fs d i := by
  constructor
  · rintro ⟨⟨hb,hi,ht⟩,⟨hb',hi',ht'⟩,hv⟩
    exact ⟨⟨⟨hb,hb'⟩,⟨hi,hi'⟩,ht⟩,ht',hv⟩
  · rintro ⟨⟨hb,hi,ht⟩,ht',hv⟩
    exact ⟨⟨hb.1,hi.1,ht⟩,⟨hb.2,hi.2,ht'⟩,hv⟩

/-- The check is exact where a bitmap or the start of a table is misplaced, where all tables leave
the last block of their group free and fit, and where one does not leave it and one does not fit. -/
theorem checkDescriptors_exact_iff (env : Env) (es : Superblock) (fs : Fs)
    (hdiv : fs.divides=false) :
    Exact env es fs ↔ (∃ i<fs.groupsCount,¬Starts es fs (getGroupDesc env fs i) i) ∨
      (∀ i<fs.groupsCount,Leaves es fs (getGroupDesc env fs i) i ∧ Fits es fs (getGroupDesc env fs i) i) ∨
      ((∃ i<fs.groupsCount,¬Leaves es fs (getGroupDesc env fs i) i) ∧
        ∃ i<fs.groupsCount,¬Fits es fs (getGroupDesc env fs i) i) := by
  simp only [Fs.divides,Bool.or_eq_false_iff,decide_eq_false_iff_not] at hdiv
  have hex (P : ℕ → Prop) : (∃ i<fs.groupsCount,¬P i) ↔ ¬∀ i<fs.groupsCount,P i := by
    simp only [not_forall,exists_prop]
  rw [exact_iff (Nat.pos_of_ne_zero hdiv.2)]
  simp only [inGroup_starts,inside_starts,forall₂_and,hex]
  tauto

theorem checkDescriptors_exact_tiny :
    (geometry smallMount tinyDisk).divides=false ∧
    Exact { smallMount with desc := fun _ _ => ⟨3,4,5,2⟩ } tinyDisk (geometry smallMount tinyDisk) := by
  refine ⟨rfl,(checkDescriptors_exact_iff _ tinyDisk (geometry smallMount tinyDisk) rfl).mpr
    (.inr (.inl fun i hi => ?_))⟩
  obtain rfl : i=0 := Nat.lt_one_iff.mp hi
  exact ⟨by unfold Leaves; decide,⟨by decide,by decide⟩⟩

theorem checkDescriptors_last : ∃ desc,
    checkAll { smallMount with desc } tinyDisk (geometry smallMount tinyDisk)=none ∧
    (∀ i<(geometry smallMount tinyDisk).groupsCount,Inside tinyDisk (geometry smallMount tinyDisk)
      (getGroupDesc { smallMount with desc } (geometry smallMount tinyDisk) i) i) ∧
    ¬Exact { smallMount with desc } tinyDisk (geometry smallMount tinyDisk) := by
  have hin : ∀ i<(geometry smallMount tinyDisk).groupsCount,Inside tinyDisk
      (geometry smallMount tinyDisk) (getGroupDesc { smallMount with desc := fun _ _ => ⟨3,4,16,2⟩ }
        (geometry smallMount tinyDisk) i) i := by
    intro i hi
    obtain rfl : i=0 := Nat.lt_one_iff.mp hi
    exact ⟨by decide,by decide,by decide⟩
  refine ⟨fun _ _ => ⟨3,4,16,2⟩,rfl,hin,fun h => ?_⟩
  obtain ⟨dirs,hd⟩ := h.accepts.mpr hin
  cases hd

end Ext2fsX.Mount
