import Ext2fsX.Framework.Machine
import Ext2fsX.Framework.WriteBack
import Ext2fsX.Mounted.Volume

namespace Ext2fsX.Mounted

open Framework
open Balloc (Alloc TailSet)
open Ialloc (Inodes)

structure Marking (l : Layout) (v w : Volume) : Prop where
  keep : ∀ b,v.descDirty b=true → w.descDirty b=true
  cover : ∀ i<l.blocks.groupsCount,w.desc i≠v.desc i → w.descDirty (l.descBlock i)=true
  clean : w.sDirt=false → v.sDirt=false ∧ w.desc=v.desc ∧ w.sFreeBlocks=v.sFreeBlocks ∧
    w.sFreeInodes=v.sFreeInodes

variable (l : Layout)

variable (v w : Volume)

theorem Marking.bitmaps (hd : w.desc=v.desc)
    (hb : w.sFreeBlocks=v.sFreeBlocks) (hi : w.sFreeInodes=v.sFreeInodes)
    (hm : w.descDirty=v.descDirty) (hs : w.sDirt=v.sDirt) : Marking l v w where
  keep _ h := hm ▸ h
  cover i _ h := absurd (congrFun hd i) h
  clean h := ⟨hs ▸ h,hd,hb,hi⟩

theorem Marking.group (i : ℕ) (hd : ∀ k,k≠i → w.desc k=v.desc k)
    (hm : ∀ b,v.descDirty b=true → w.descDirty b=true) (hi : w.descDirty (l.descBlock i)=true)
    (hs : w.sDirt=true) : Marking l v w where
  keep := hm
  cover k _ h := by
    by_cases hk : k=i
    · subst hk
      exact hi
    · exact absurd (hd k hk) h
  clean h := by
    rw [hs] at h
    cases h

theorem update_true (f : ℕ → Bool) (b k : ℕ) (h : f k=true) : Function.update f b true k=true := by
  by_cases hk : k=b
  · subst hk
    simp
  · rwa [Function.update_of_ne hk]

section Blocks

variable {g : Balloc.Geometry} {a : Alloc} {pre : Bool}

variable {b : Alloc}

def OneGroup (dpb : ℕ) (a b : Alloc) : Prop :=
  b=a ∨ ∃ i,(∀ q,q≠i → b.bgFree q=a.bgFree q) ∧
    b.descDirty=Function.update a.descDirty (i/dpb) true ∧ b.sDirt=true

theorem newBlock_oneGroup (ht : TailSet g a) (goal : ℕ) (h : newBlock g a goal pre=some b) :
    OneGroup g.descPerBlock a b := by
  unfold newBlock at h
  have hr := Balloc.attempt_cases g a goal pre
  generalize Balloc.attempt g a goal pre=r at hr h
  cases hr with
  | got i k hi hk =>
    -- a bit inside the bitmap is not lost
    have hlt := (ht.valid hi.1 hk.clear.1 hk.clear.2).2
    unfold Balloc.gotBlock at h
    dsimp only at h
    rw [if_neg (by simp [hk.clear.2] : ¬a.bitmap i k=true),
      if_neg (by omega : ¬g.blocksCount≤g.blockAt i k%2^32)] at h
    split_ifs at h
    · cases h
    all_goals
      cases h
      exact .inr ⟨i,fun q hq => by simp [Function.update_of_ne hq],rfl,rfl⟩
  | _ =>
    cases h
    exact .inl rfl

theorem clearLoop_frame (i n bit : ℕ) (a : Alloc) :
    (∀ q,q≠i → (Balloc.clearLoop i n bit a).bgFree q=a.bgFree q) ∧
      (Balloc.clearLoop i n bit a).descDirty=a.descDirty := by
  induction n generalizing bit a with
  | zero => exact ⟨fun _ _ => rfl,rfl⟩
  | succ n ih =>
    obtain ⟨h1,h2⟩ := ih (bit+1) (Balloc.clearBit a i bit)
    have hone : (∀ q,q≠i → (Balloc.clearBit a i bit).bgFree q=a.bgFree q) ∧
        (Balloc.clearBit a i bit).descDirty=a.descDirty := by
      unfold Balloc.clearBit
      split
      · exact ⟨fun q hq => Function.update_of_ne hq _ _,rfl⟩
      · exact ⟨fun _ _ => rfl,rfl⟩
    exact ⟨fun q hq => (h1 q hq).trans (hone.1 q hq),h2.trans hone.2⟩

theorem freeBlocks_oneGroup (block count : ℕ) (h : Balloc.freeBlocks g a block count=some b) :
    OneGroup g.descPerBlock a b := by
  unfold Balloc.freeBlocks at h
  split at h
  · cases h
    exact .inl rfl
  · rename_i i bit n _
    unfold Balloc.freeBlocksFinish at h
    split_ifs at h
    cases h
    obtain ⟨h1,h2⟩ := clearLoop_frame i n bit a
    refine .inr ⟨i,h1,?_,rfl⟩
    rw [h2]
  all_goals cases h

theorem OneGroup.marking {l : Layout} {v : Volume}
    (h : OneGroup l.blocks.descPerBlock v.alloc b) : Marking l v (v.setAlloc b) := by
  obtain rfl | ⟨i,hf,hm,hs⟩ := h
  · exact Marking.bitmaps l v _ rfl rfl rfl rfl rfl
  apply Marking.group l v _ i
  · intro k hk
    simp only [Volume.setAlloc,hf k hk]
    rfl
  · intro k hk
    simp only [Volume.setAlloc,hm]
    exact update_true _ _ _ hk
  · simp [Volume.setAlloc,hm,Layout.descBlock]
  · exact hs

end Blocks

section Inodes

def Eligible (l : Layout) (v : Volume) (i : ℕ) : Prop :=
  i<l.inodes.groupsCount ∧ (v.desc i).freeInodes≠0 ∧
    Ialloc.avefreei l.inodes v.inodes≤(v.desc i).freeInodes

def Roomiest (l : Layout) (v : Volume) (i : ℕ) : Prop :=
  Eligible l v i ∧
    (∀ k,Eligible l v k → k < i → (v.desc k).freeBlocks<(v.desc i).freeBlocks) ∧
    ∀ k,Eligible l v k → (v.desc k).freeBlocks≤(v.desc i).freeBlocks

def BestBelow (free blocks : ℕ → ℕ) (ave : ℤ) (j : ℕ) : Option ℕ → Prop
  | none => ∀ k<j,¬(free k≠0 ∧ ave≤free k)
  | some i => (i<j ∧ free i≠0 ∧ ave≤free i) ∧
      (∀ k < i,free k≠0 ∧ ave≤free k → blocks k<blocks i) ∧
      ∀ k<j,free k≠0 ∧ ave≤free k → blocks k≤blocks i

theorem dirSearch_best (free blocks : ℕ → ℕ) (ave : ℤ) (n j : ℕ) (best : Option ℕ)
    (h : BestBelow free blocks ave j best) :
    BestBelow free blocks ave (n+j) (Ialloc.dirSearch free blocks ave n j best) := by
  induction n generalizing j best with
  | zero => simpa [Ialloc.dirSearch] using h
  | succ n ih =>
    rw [show n+1+j=n+(j+1) by omega]
    apply ih
    -- the new choice is the best below j+1
    cases best with
    | none =>
      by_cases he : free j≠0 ∧ ave≤free j
      · have hnew : free j≠0 ∧ ave≤free j ∧ (none : Option ℕ).all (fun k => blocks k<blocks j) :=
          ⟨he.1,he.2,rfl⟩
        rw [if_pos hnew]
        refine ⟨⟨by omega,he⟩,fun k hk hek => absurd hek (h k hk),fun k hk hek => ?_⟩
        by_cases hkj : k=j
        · rw [hkj]
        · exact absurd hek (h k (by omega))
      · rw [if_neg (fun hc => he ⟨hc.1,hc.2.1⟩)]
        intro k hk hek
        by_cases hkj : k=j
        · exact he (hkj ▸ hek)
        · exact h k (by omega) hek
    | some i =>
      obtain ⟨hi,hlow,hall⟩ := h
      by_cases hnew : free j≠0 ∧ ave≤free j ∧ (some i).all (fun k => blocks k<blocks j)
      · rw [if_pos hnew]
        have hlt : blocks i<blocks j := by simpa using hnew.2.2
        refine ⟨⟨by omega,hnew.1,hnew.2.1⟩,fun k hk hek => (hall k hk hek).trans_lt hlt,?_⟩
        intro k hk hek
        by_cases hkj : k=j
        · rw [hkj]
        · exact (hall k (by omega) hek).trans hlt.le
      · rw [if_neg hnew]
        refine ⟨⟨by omega,hi.2⟩,hlow,?_⟩
        intro k hk hek
        by_cases hkj : k=j
        · subst hkj
          by_contra hn
          exact hnew ⟨hek.1,hek.2,by simp; omega⟩
        · exact hall k (by omega) hek

variable (l : Layout) (v : Volume)

theorem dirSearch_roomiest (i : ℕ)
    (h : Ialloc.dirSearch v.inodes.bgFree (fun i => (v.desc i).freeBlocks)
      (Ialloc.avefreei l.inodes v.inodes) l.inodes.groupsCount 0 none=some i) : Roomiest l v i := by
  have hb := dirSearch_best v.inodes.bgFree (fun i => (v.desc i).freeBlocks)
    (Ialloc.avefreei l.inodes v.inodes) l.inodes.groupsCount 0 none (by simp [BestBelow])
  rw [h,Nat.add_zero] at hb
  obtain ⟨⟨h1,h2⟩,h3,h4⟩ := hb
  exact ⟨⟨h1,h2⟩,fun k hk hlt => h3 k hlt hk.2,fun k hk => h4 k hk.1 hk.2⟩

def DirMarked (l : Layout) (v : Volume) : Prop :=
  ∀ i,Roomiest l v i →
    l.descBlock i=l.descBlock (l.blocks.groupsCount-1) ∨ v.descDirty (l.descBlock i)=true

theorem newInodeFinish_marking (dir : Bool) (i last : ℕ)
    (hmark : l.descBlock i=l.descBlock last ∨ v.descDirty (l.descBlock i)=true) :
    (∀ b ino,Ialloc.newInodeFinish l.inodes v.inodes dir i last=.got b ino →
      Marking l v (v.setInodes b)) ∧
    ∀ b,Ialloc.newInodeFinish l.inodes v.inodes dir i last=.lost b →
      Marking l v (v.setInodes b) := by
  unfold Ialloc.newInodeFinish
  dsimp only
  constructor
  · intro b ino h
    split_ifs at h
    all_goals try cases h
    all_goals
      apply Marking.group l v _ i
      · intro k hk
        simp [Volume.setInodes,Volume.inodes,Function.update_of_ne hk]
      · intro k hk
        exact update_true _ _ _ hk
      · simp only [Volume.setInodes,Volume.inodes,l.desc_eq]
        obtain he | hd := hmark
        · rw [he]
          exact Function.update_self _ _ _
        · exact update_true _ _ _ hd
      · rfl
  · intro b h
    split_ifs at h
    all_goals try cases h
    all_goals exact Marking.bitmaps l v _ rfl rfl rfl rfl rfl

theorem newInodeStart_last (dg : ℕ) (dir : Bool) (i last : ℕ) (hok : dir=true → DirMarked l v)
    (h : Ialloc.newInodeStart l.inodes v.inodes (fun i => (v.desc i).freeBlocks) dg dir=
      some (i,last)) :
    l.descBlock i=l.descBlock last ∨ v.descDirty (l.descBlock i)=true := by
  unfold Ialloc.newInodeStart at h
  cases dir with
  | true =>
    obtain ⟨k,hk,he⟩ := Option.map_eq_some_iff.mp h
    cases he
    rw [l.groups_eq]
    exact hok rfl i (dirSearch_roomiest l v i hk)
  | false =>
    left
    simp only [Bool.false_eq_true,if_false] at h
    split at h
    · cases h
      rfl
    · obtain ⟨k,-,he⟩ := Option.map_eq_some_iff.mp h
      cases he
      rfl

theorem newInode_marking (dg : ℕ) (dir : Bool) (hok : dir=true → DirMarked l v) {b : Inodes}
    (h : newInode l.inodes v.inodes (fun i => (v.desc i).freeBlocks) dg dir=some b) :
    Marking l v (v.setInodes b) := by
  have same : Marking l v (v.setInodes v.inodes) := Marking.bitmaps l v _ rfl rfl rfl rfl rfl
  unfold newInode Ialloc.attempt at h
  split at h
  · cases h
  cases hs : Ialloc.newInodeStart l.inodes v.inodes (fun i => (v.desc i).freeBlocks) dg dir with
  | none =>
    rw [hs] at h
    cases h
    exact same
  | some r =>
    obtain ⟨i,last⟩ := r
    rw [hs] at h
    dsimp only at h
    obtain ⟨hgot,hlost⟩ :=
      newInodeFinish_marking l v dir i last (newInodeStart_last l v dg dir i last hok hs)
    cases hf : Ialloc.newInodeFinish l.inodes v.inodes dir i last with
    | got a n =>
      rw [hf] at h
      cases h
      exact hgot _ _ hf
    | lost a =>
      rw [hf] at h
      cases h
      exact hlost _ hf
    | corrupted =>
      rw [hf] at h
      cases h
      exact same
    | again =>
      rw [hf] at h
      cases h

theorem freeInode_marking (nlink : ℕ) (dir : Bool) (ino : ℕ) :
    Marking l v (v.setInodes (Ialloc.freeInode l.inodes v.inodes ⟨ino,nlink⟩ dir)) := by
  have same : Marking l v (v.setInodes v.inodes) := Marking.bitmaps l v _ rfl rfl rfl rfl rfl
  unfold Ialloc.freeInode
  split
  · exact same
  split
  · exact same
  · unfold Ialloc.freeInodeFinish
    dsimp only
    split
    · apply Marking.group l v _ (l.inodes.groupOf ino)
      · intro k hk
        cases dir <;> simp [Volume.setInodes,Volume.inodes,Function.update_of_ne hk]
      · intro k hk
        exact update_true _ _ _ hk
      · simp [Volume.setInodes,Volume.inodes,l.desc_eq,Layout.descBlock]
      · rfl
    · exact ⟨fun _ h => h,fun i _ h => absurd rfl h,fun h => by cases h⟩

end Inodes

def CallOk (l : Layout) (v : Volume) : Call → Prop
  | .newBlock _ _ => TailSet l.blocks v.alloc
  | .newInode _ dir => dir=true → DirMarked l v
  | _ => True

theorem call_marking (c : Call) (hok : CallOk l v c) (h : v.call l c=some w) : Marking l v w := by
  cases c with
  | newBlock goal pre =>
    obtain ⟨r,hr,rfl⟩ := Option.map_eq_some_iff.mp h
    exact (newBlock_oneGroup hok goal hr).marking
  | freeBlocks block count =>
    obtain ⟨r,hr,rfl⟩ := Option.map_eq_some_iff.mp h
    exact (freeBlocks_oneGroup block count hr).marking
  | newInode dg dir =>
    obtain ⟨r,hr,rfl⟩ := Option.map_eq_some_iff.mp h
    exact newInode_marking l v dg dir hok hr
  | freeInode nlink dir ino =>
    cases h
    exact freeInode_marking l v nlink dir ino

/-- `changed`: the descriptors changed since their block was last written. -/
structure Tracked where
  vol : Volume
  disk : ℕ → Desc
  changed : ℕ → Bool

def Volume.writeDescs (l : Layout) (v : Volume) (disk : ℕ → Desc) : Volume × (ℕ → Desc) :=
  ({ v with descDirty := unmark v.descDirty l.dbpg },
    writeBack l.descBlock v.desc v.descDirty l.dbpg disk)

inductive Act where
  | call (c : Call)
  | sbupdate

namespace Tracked

def sbupdate (l : Layout) (s : Tracked) : Tracked where
  vol := (s.vol.writeDescs l s.disk).1
  disk := (s.vol.writeDescs l s.disk).2
  changed := writeBack l.descBlock (fun _ => false) s.vol.descDirty l.dbpg s.changed

def next (l : Layout) (x : Act) (s : Tracked) : Option Tracked :=
  match x with
  | .call c => (s.vol.call l c).map (fun w =>
    { vol := w
      disk := s.disk
      changed := fun i => s.changed i || decide (w.desc i≠s.vol.desc i) })
  | .sbupdate => some (s.sbupdate l)

end Tracked

def marksMachine (l : Layout) : Machine Tracked Act where
  init s := (∀ i,s.disk i=s.vol.desc i) ∧ (∀ i,s.changed i=false) ∧ ∀ b,s.vol.descDirty b=false
  next := Tracked.next l

def StepOk (l : Layout) (s : Tracked) : Act → Prop
  | .call c => CallOk l s.vol c
  | .sbupdate => True

/-- Every descriptor changed since its last write lies in a marked block. -/
def Marked (l : Layout) (s : Tracked) : Prop :=
  Covered l.descBlock l.blocks.groupsCount (fun i => s.changed i=true) s.vol.descDirty

def Recorded (s : Tracked) : Prop := ∀ i,s.changed i=false → s.disk i=s.vol.desc i

theorem next_recorded (s s' : Tracked) (x : Act) (h : Recorded s)
    (hn : s.next l x=some s') : Recorded s' := by
  cases x with
  | call c =>
    obtain ⟨w,-,rfl⟩ := Option.map_eq_some_iff.mp hn
    intro i hi
    simp only [Bool.or_eq_false_iff,decide_eq_false_iff_not,ne_eq,not_not] at hi
    exact (h i hi.1).trans hi.2.symm
  | sbupdate =>
    cases hn
    intro i hi
    simp only [Tracked.sbupdate,Volume.writeDescs,writeBack_eq] at hi ⊢
    split
    · rfl
    case isFalse hb =>
      rw [if_neg hb] at hi
      exact h i hi

theorem next_marked (s s' : Tracked) (x : Act) (h : Marked l s) (hok : StepOk l s x)
    (hn : s.next l x=some s') : Marked l s' := by
  cases x with
  | call c =>
    obtain ⟨w,hw,rfl⟩ := Option.map_eq_some_iff.mp hn
    have hm := call_marking l s.vol w c hok hw
    apply Covered.step h hm.keep
    intro i hi hc
    simp only [Bool.or_eq_true,decide_eq_true_eq] at hc
    obtain ho | hd := hc
    · exact .inl ho
    · exact .inr (hm.cover i hi hd)
  | sbupdate =>
    cases hn
    intro i hi hc
    simp only [Tracked.sbupdate,writeBack_eq] at hc
    split at hc
    · cases hc
    case isFalse hb => exact absurd ⟨l.descBlock_lt i hi,h i hi hc⟩ hb

/-- In such runs each descriptor changed since its last write lies in a marked block, and the next
`ext2_sbupdate` puts all of them on disk. -/
theorem descriptors_marked (l : Layout) (s : Tracked) (h : (marksMachine l).Reach (StepOk l) s) :
    Marked l s ∧ ∀ i<l.blocks.groupsCount,(s.sbupdate l).disk i=s.vol.desc i := by
  have hinv : Recorded s ∧ Marked l s := by
    refine Machine.Reach.invariant (I := fun s => Recorded s ∧ Marked l s) ?_ ?_ h
    · intro s hs
      refine ⟨fun i _ => hs.1 i,fun i _ hc => ?_⟩
      have hf := hs.2.1 i
      exact absurd hc (by simp [hf])
    · intro s s' x hs hok hn
      exact ⟨next_recorded l s s' x hs.1 hn,next_marked l s s' x hs.2 hok hn⟩
  refine ⟨hinv.2,hinv.2.writeBack_all ?_ _ l.descBlock_lt⟩
  intro i _ hn
  exact hinv.1 i (by simpa using hn)

def twoDescBlocks : Layout where
  blocks :=
    { firstDataBlock := 1
      blocksCount := 2113
      blocksPerGroup := 64
      groupsCount := 33
      descPerBlock := 32
      itpg := 2
      preallocBlocks := 0
      blockBitmap := fun i => 64*i+1
      inodeBitmap := fun i => 64*i+2
      inodeTable := fun i => 64*i+3
      first_lt := by decide
      count_lt := by decide
      bpg_pos := (by decide : 1≤64)
      bpg_dvd := ⟨1,rfl⟩
      bpg_lt := (by decide : 64<65536)
      groups_eq := by decide }
  inodes :=
    { groupsCount := 33
      inodesPerGroup := 16
      inodesCount := 528
      descPerBlock := 32
      groups_pos := by decide
      ipg_pos := (by decide : 1≤16)
      ipg_lt := (by decide : 16<65536)
      count_eq := by decide
      count_lt := by decide }
  groups_eq := rfl
  desc_eq := rfl
  desc_pos := by decide

def justMounted (full : ℕ) : Tracked where
  vol :=
    { blockBitmap := fun i j => decide (j<4) || decide (i=full)
      inodeBitmap := fun i j => decide (j<10) || decide (i≠0 ∧ i≠32)
      desc := fun i => ⟨if i=full then 0 else 60,if i=0 ∨ i=32 then 6 else 0,0⟩
      sFreeBlocks := 1920
      sFreeInodes := 12
      dircount := 0
      descDirty := fun _ => false
      sDirt := false }
  disk i := ⟨if i=full then 0 else 60,if i=0 ∨ i=32 then 6 else 0,0⟩
  changed _ := false

def makeDirectory : List Act := [.call (.newInode 0 true),.call (.newInode 0 false)]

theorem justMounted_roomiest (i : ℕ) (h : Roomiest twoDescBlocks (justMounted 0).vol i) : i=32 := by
  obtain ⟨⟨hi,hf,-⟩,-,hall⟩ := h
  have hlast := hall 32 ⟨by decide,by decide,by decide⟩
  simp only [justMounted] at hf hlast
  have hz : i=0 ∨ i=32 := by
    by_contra hn
    simp [hn] at hf
  obtain rfl | rfl := hz
  · simp at hlast
  · rfl

theorem descriptors_marked_last :
    ∃ s,(marksMachine twoDescBlocks).exec makeDirectory (justMounted 0)=some s ∧
      s.changed 32=true ∧ s.vol.descDirty 1=true ∧
      ∀ i<33,(s.sbupdate twoDescBlocks).disk i=s.vol.desc i := by
  have he : (marksMachine twoDescBlocks).exec makeDirectory (justMounted 0)=some _ := rfl
  have hinit : (marksMachine twoDescBlocks).init (justMounted 0) :=
    ⟨fun _ => rfl,fun _ => rfl,fun _ => rfl⟩
  have hmeets : (marksMachine twoDescBlocks).Meets (StepOk twoDescBlocks) makeDirectory
      (justMounted 0) := by
    refine ⟨fun _ i hi => .inl (by rw [justMounted_roomiest i hi]; rfl),fun s' _ => ?_⟩
    exact ⟨nofun,fun _ _ => trivial⟩
  have hm := descriptors_marked twoDescBlocks _ ((Machine.Reach.start hinit).exec hmeets he)
  exact ⟨_,he,by decide +kernel,hm.1 32 (by decide) (by decide +kernel),hm.2⟩

/-- The directory is made in group 0; the block of the last group is marked, and the next
`ext2_sbupdate` does not write the change. -/
theorem makeDirectory_unmarked :
    (marksMachine twoDescBlocks).init (justMounted 32) ∧
      ∃ s,(marksMachine twoDescBlocks).exec [.call (.newInode 0 true)] (justMounted 32)=some s ∧
        s.changed 0=true ∧ s.vol.descDirty 0=false ∧ s.vol.descDirty 1=true ∧
        (s.sbupdate twoDescBlocks).disk 0≠s.vol.desc 0 := by
  refine ⟨⟨fun _ => rfl,fun _ => rfl,fun _ => rfl⟩,_,rfl,?_,?_,?_,?_⟩
  all_goals decide +kernel

end Ext2fsX.Mounted
