import Ext2fsX.Balloc.Interleaving

namespace Ext2fsX.Balloc

open Framework

/-- How a call alone ends: with the block `b` and the window of `n` blocks behind it, or without a
block. `again`: more rounds of `repeat:` than were allowed. -/
inductive NewBlock where
  | panic
  | again
  | zero (a : Alloc)
  | block (a : Alloc) (b n : ℕ)

def Got.result : Got → NewBlock
  | .panic => .panic
  | .again => .again
  | .lost a => .zero a
  | .got a b n => .block a b n

variable (g : Disk) (a : Alloc)

/-- The search of the group that was found to have a free block. -/
def scanGroup (pre : Bool) : Search → NewBlock
  | .scan i =>
    match scanSearch g.blocksPerGroup (a.bitmap i) with
    | some k => (gotBlock g a pre i k).result
    | none => .zero a
  | _ => .zero a

def attempt (goal : ℕ) (pre : Bool) : NewBlock :=
  match newBlockStart g a goal with
  | .goal i j =>
    match goalSearch g.blocksPerGroup (a.bitmap i) j with
    | some k => (gotBlock g a pre i k).result
    | none => scanGroup g a pre (nextGroup g a g.groupsCount i)
  | s => scanGroup g a pre s

def newBlock (goal : ℕ) (pre : Bool) : ℕ → NewBlock
  | 0 => .again
  | rounds+1 =>
    match attempt g a goal pre with
    | .again => newBlock goal pre rounds
    | r => r

def Disk.Free (b : ℕ) : Prop :=
  g.Valid b ∧ a.bitmap (g.groupOf b) (g.bitOf b)=false

/-- Counters and bitmaps agree; the bits past the end, of the system zones and of a superblock in
block 0 are set; the inode tables are in the filesystem. -/
structure Sane : Prop where
  accounted : Accounted g a
  tail : TailSet g a
  system : ∀ i b,i<g.groupsCount → g.System i b → g.Valid b →
    a.bitmap (g.groupOf b) (g.bitOf b)=true
  superblock : g.firstDataBlock=0 → a.bitmap 0 0=true
  tables : ∀ i<g.groupsCount,g.inodeTable i+g.itpg≤g.blocksCount
  table_pos : 0<g.itpg

theorem scanSearch_complete (bpg : ℕ) (bits : ℕ → Bool) (q : ℕ) (hq : q<bpg) (hc : bits q=false) : scanSearch bpg bits≠none := by
  have hlt := findFirstZeroBit_lt bits bpg q hq hc
  unfold scanSearch
  by_cases hb : memscan bits 0 (bpg/8)*8<bpg
  · simp [hb]
  · simp [hb,hlt]

variable (g : Disk) (a : Alloc)

theorem nextGroup_scan_pos (k i i' : ℕ) (h : nextGroup g a k i=.scan i') : 0<a.bgFree i' :=
  (nextGroup_scan g a k i i' g.groupsCount_pos h).2

theorem nextGroup_full_all (i : ℕ) (hi : i<g.groupsCount)
    (h : nextGroup g a g.groupsCount i=.full) : ∀ c<g.groupsCount,a.bgFree c=0 := by
  intro c hc
  rw [nextGroup_eq] at h
  cases hf : firstAfter g.groupsCount (fun c => decide (0<a.bgFree c)) g.groupsCount i with
  | none =>
    have hz := firstAfter_none_all hi hf c hc
    have hn := of_decide_eq_false hz
    omega
  | some q =>
    rw [hf] at h
    cases h

theorem newBlockStart_full (goal : ℕ)
    (h : newBlockStart g a goal=.full) : ∀ c<g.groupsCount,a.bgFree c=0 := by
  have hi := g.groupOf_lt _ (clampGoal_valid g goal)
  unfold newBlockStart at h
  dsimp only at h
  split at h
  · cases h
  · exact nextGroup_full_all g a _ hi h

theorem newBlockStart_scan_pos (goal i : ℕ)
    (h : newBlockStart g a goal=.scan i) : 0<a.bgFree i := by
  unfold newBlockStart at h
  dsimp only at h
  split at h
  · cases h
  · exact nextGroup_scan_pos g a _ _ i h

theorem newBlockStart_goal_pos (goal i j : ℕ)
    (h : newBlockStart g a goal=.goal i j) : 0<a.bgFree i := by
  unfold newBlockStart at h
  dsimp only at h
  split at h
  · rename_i hpos
    injection h with h1 _
    exact h1 ▸ hpos
  · exact absurd h (nextGroup_ne_goal g a _ _ i j)

/-- A bit that one of the two searches of a bitmap gives. -/
def Finds (bpg : ℕ) (bits : ℕ → Bool) (k : ℕ) : Prop :=
  scanSearch bpg bits=some k ∨ ∃ j<bpg,goalSearch bpg bits j=some k

/-- How one round ends: with a bit of a group that has free blocks, or without a block. -/
inductive Attempted (pre : Bool) : NewBlock → Prop
  | got (i k : ℕ) (hi : i<g.groupsCount ∧ 0<a.bgFree i)
      (hk : Finds g.blocksPerGroup (a.bitmap i) k) : Attempted pre (gotBlock g a pre i k).result
  | full (h : ∀ i<g.groupsCount,a.bgFree i=0) : Attempted pre (.zero a)
  | none (i : ℕ) (hi : i<g.groupsCount ∧ 0<a.bgFree i)
      (hs : scanSearch g.blocksPerGroup (a.bitmap i)=none) : Attempted pre (.zero a)

theorem attempt_cases (goal : ℕ) (pre : Bool) : Attempted g a pre (attempt g a goal pre) := by
  have hscan {i : ℕ} (hi : i<g.groupsCount ∧ 0<a.bgFree i) :
      Attempted g a pre (scanGroup g a pre (.scan i)) := by
    unfold scanGroup
    dsimp only
    cases hs : scanSearch g.blocksPerGroup (a.bitmap i) with
    | some k => exact .got i k hi (.inl hs)
    | none => exact .none i hi hs
  unfold attempt
  cases hstart : newBlockStart g a goal with
  | full => exact .full (newBlockStart_full g a goal hstart)
  | scan i =>
    exact hscan ⟨newBlockStart_scan g a goal i hstart,newBlockStart_scan_pos g a goal i hstart⟩
  | goal i j =>
    obtain ⟨hi,hj⟩ := newBlockStart_goal g a goal i j hstart
    dsimp only
    cases hg : goalSearch g.blocksPerGroup (a.bitmap i) j with
    | some k =>
      exact .got i k ⟨hi,newBlockStart_goal_pos g a goal i j hstart⟩ (.inr ⟨j,hj,hg⟩)
    | none =>
      cases hn : nextGroup g a g.groupsCount i with
      | full => exact .full (nextGroup_full_all g a i hi hn)
      | scan i' =>
        exact hscan ⟨nextGroup_lt g a _ i i' g.groupsCount_pos hn,nextGroup_scan_pos g a _ i i' hn⟩
      | goal i' j' => exact absurd hn (nextGroup_ne_goal g a _ i i' j')

namespace Sane

variable {g : Geometry} {a : Alloc}

theorem clear_data (h : Sane g a) {i j : ℕ} (hi : i<g.groupsCount) (hj : j<g.blocksPerGroup)
    (hc : a.bitmap i j=false) : ¬g.System i (g.blockAt i j) := by
  intro hsys
  have hs := h.system i _ hi hsys (h.tail.valid hi hj hc)
  obtain ⟨h1,h2⟩ := g.of_blockAt i j hj
  rw [h1,h2,hc] at hs
  cases hs

theorem gotBlock_ne_panic (h : Sane g a) (pre : Bool) {i j : ℕ} (hi : i<g.groupsCount)
    (hj : j<g.blocksPerGroup) (hc : a.bitmap i j=false) : gotBlock g a pre i j≠.panic := by
  have hv := h.tail.valid hi hj hc
  have hd := h.clear_data hi hj hc
  have ht := h.tables i hi
  have hp := h.table_pos
  have hcount := g.count_lt
  have hlt := hv.2
  have htmp : g.blockAt i j%2^32=g.blockAt i j := Nat.mod_eq_of_lt (hlt.trans hcount)
  have hzone : ¬(g.blockAt i j=g.blockBitmap i ∨ g.blockAt i j=g.inodeBitmap i ∨
      (g.inodeTable i≤g.blockAt i j ∧
        inRange (signExtend (g.blockAt i j)) (g.inodeTable i) g.itpg=true)) := by
    rintro (hb | hb | ⟨hb,hr⟩)
    · exact hd (.inl hb)
    · exact hd (.inr (.inl hb))
    unfold inRange signExtend at hr
    rw [show g.inodeTable i+g.itpg+2^64-1=2^64+(g.inodeTable i+g.itpg-1) by omega,
      Nat.add_mod_left,Nat.mod_eq_of_lt (by omega),Bool.and_eq_true,decide_eq_true_eq,
      decide_eq_true_eq] at hr
    refine hd (.inr (.inr ⟨hb,?_⟩))
    split at hr <;> omega
  unfold gotBlock
  rw [htmp,if_neg hzone,if_neg (by simp [hc]),if_neg (by omega)]
  simp

end Sane

/-- `b` and the window behind it were free and in one group, theirs are the bits that change, and
the counters follow. -/
structure Reserved (g : Geometry) (a a' : Alloc) (b n : ℕ) : Prop where
  accounted : Accounted g a'
  valid : g.Valid b
  free : ∀ k≤n,g.Free a (b+k) ∧ g.groupOf (b+k)=g.groupOf b
  bits : ∀ i j,a'.bitmap i j=
    (a.bitmap i j || decide (i=g.groupOf b ∧ g.bitOf b≤j ∧ j≤g.bitOf b+n))

variable {g : Geometry}

theorem Finds.clear {bits : ℕ → Bool} {k : ℕ} (h : Finds g.blocksPerGroup bits k) :
    k<g.blocksPerGroup ∧ bits k=false := by
  obtain hs | ⟨j,hj,hg⟩ := h
  · exact scanSearch_sound _ _ k g.bpg_dvd hs
  · exact goalSearch_sound _ _ j k g.bpg_dvd g.bpg_lt hj hg

theorem Took.reserved {a a' : Alloc} {i j n : ℕ} (h : Sane g a)
    (hi : i<g.groupsCount) (ht : Took g a a' i j n) : Reserved g a a' (g.blockAt i j) n := by
  have hin := ht.inside
  obtain ⟨h1,h2⟩ := g.of_blockAt i j (by omega)
  refine ⟨ht.accounted,h.tail.valid hi (by omega) (ht.clear j (Nat.le_refl j) (by omega)),?_,?_⟩
  · intro k hk
    obtain ⟨h3,h4⟩ := g.of_blockAt i (j+k) (by omega)
    have hc := ht.clear (j+k) (by omega) (by omega)
    rw [g.blockAt_add,h1]
    refine ⟨⟨h.tail.valid hi (by omega) hc,?_⟩,h3⟩
    rw [h3,h4]
    exact hc
  · intro i' j'
    rw [h1,h2]
    exact ht.set i' j'

variable {a : Alloc}

theorem Sane.got (h : Sane g a) (pre : Bool) {i j : ℕ}
    (hi : i<g.groupsCount) (hj : j<g.blocksPerGroup) (hc : a.bitmap i j=false) :
    ∃ a' b n,(gotBlock g a pre i j).result=.block a' b n ∧ b≠0 ∧ Reserved g a a' b n ∧
      (pre=false → n=0) := by
  rcases gotBlock_cases g a pre i j h.accounted h.tail hi hj hc with hp | ⟨a',n,hgot,htook⟩
  · exact absurd hp (h.gotBlock_ne_panic pre hi hj hc)
  refine ⟨a',g.blockAt i j,n,by rw [hgot]; rfl,?_,htook.reserved h hi,?_⟩
  · -- block 0 is that of the superblock
    intro h0
    unfold Disk.blockAt at h0
    have hfirst : g.firstDataBlock=0 := by omega
    have hj0 : j=0 := by omega
    have hi0 : i=0 := by
      have hm : i*g.blocksPerGroup=0 := by omega
      rcases Nat.mul_eq_zero.mp hm with hz | hz <;> omega
    have hs := h.superblock hfirst
    rw [hi0,hj0] at hc
    rw [hc] at hs
    cases hs
  · intro hpre
    subst hpre
    unfold gotBlock at hgot
    dsimp only at hgot
    split at hgot
    · cases hgot
    split at hgot
    · cases hgot
    · split at hgot
      · cases hgot
      · injection hgot with _ _ hn
        exact hn.symm

theorem Sane.free_iff (h : Sane g a) : (∃ b,g.Free a b) ↔ ∃ i<g.groupsCount,0<a.bgFree i := by
  constructor
  · rintro ⟨b,hv,hc⟩
    have hi := g.groupOf_lt b hv
    refine ⟨g.groupOf b,hi,?_⟩
    rw [h.accounted.group _ hi]
    exact clearBits_pos _ _ _ (g.bitOf_lt b) hc
  · rintro ⟨i,hi,hpos⟩
    rw [h.accounted.group i hi] at hpos
    obtain ⟨j,hj,hc⟩ := exists_clear_of_pos _ _ hpos
    obtain ⟨h1,h2⟩ := g.of_blockAt i j hj
    refine ⟨g.blockAt i j,h.tail.valid hi hj hc,?_⟩
    rw [h1,h2]
    exact hc

theorem Sane.attempt (h : Sane g a) (goal : ℕ) (pre : Bool) :
    (∃ i<g.groupsCount,0<a.bgFree i) ∧ (∃ a' b n,attempt g a goal pre=.block a' b n ∧ b≠0 ∧
      Reserved g a a' b n ∧ (pre=false → n=0)) ∨
    (∀ i<g.groupsCount,a.bgFree i=0) ∧ attempt g a goal pre=.zero a := by
  have hr := attempt_cases g a goal pre
  generalize Balloc.attempt g a goal pre=r at hr ⊢
  cases hr with
  | got i k hi hk => exact .inl ⟨⟨i,hi⟩,h.got pre hi.1 hk.clear.1 hk.clear.2⟩
  | full hnone => exact .inr ⟨hnone,rfl⟩
  | none i hi hs =>
    -- the count promises a clear bit
    have hpos := hi.2
    rw [h.accounted.group i hi.1] at hpos
    obtain ⟨q,hq,hc⟩ := exists_clear_of_pos _ _ hpos
    exact absurd hs (scanSearch_complete _ _ q hq hc)

/-- Alone, whatever the goal, the call returns a block exactly when one is free, that block was
free, and its bit and its window's are all that changes. -/
theorem newBlock_exact (g : Geometry) (a : Alloc) (goal : ℕ) (pre : Bool) (rounds : ℕ)
    (h : Sane g a) :
    ((∃ b,g.Free a b) ↔ ∃ a' b n,newBlock g a goal pre (rounds+1)=.block a' b n ∧ b≠0) ∧
      (∀ a' b n,newBlock g a goal pre (rounds+1)=.block a' b n →
        Reserved g a a' b n ∧ (pre=false → n=0)) ∧
      ((¬∃ b,g.Free a b) → newBlock g a goal pre (rounds+1)=.zero a) := by
  rw [h.free_iff]
  unfold newBlock
  rcases h.attempt goal pre with ⟨hfree,a',b,n,he,hb,hr,hn⟩ | ⟨hnone,he⟩
  · rw [he]
    refine ⟨⟨fun _ => ⟨a',b,n,rfl,hb⟩,fun _ => hfree⟩,?_,fun hno => absurd hfree hno⟩
    intro a1 b1 n1 heq
    cases heq
    exact ⟨hr,hn⟩
  · rw [he]
    refine ⟨⟨?_,?_⟩,?_,fun _ => rfl⟩
    · rintro ⟨i,hi,hpos⟩
      rw [hnone i hi] at hpos
      cases hpos
    · rintro ⟨a1,b1,n1,heq,-⟩
      cases heq
    · intro a1 b1 n1 heq
      cases heq

theorem emptyGroup_sane : Sane oneGroup emptyGroup.fs := by
  have hc := emptyGroup_init.1
  refine ⟨hc.accounted,hc.tail,hc.system,?_,?_,by decide⟩
  · intro h
    cases h
  · intro i _
    change 3+2≤65
    omega

theorem newBlock_exact_oneGroup :
    Sane oneGroup emptyGroup.fs ∧ oneGroup.Free emptyGroup.fs 40 ∧
      ∃ a' b n,newBlock oneGroup emptyGroup.fs 2 true 1=.block a' b n ∧ b≠0 ∧
        Reserved oneGroup emptyGroup.fs a' b n := by
  have hfree : oneGroup.Free emptyGroup.fs 40 := ⟨⟨by decide,by decide⟩,by decide⟩
  obtain ⟨hiff,hblock,-⟩ := newBlock_exact oneGroup emptyGroup.fs 2 true 0 emptyGroup_sane
  obtain ⟨a',b,n,he,hb⟩ := hiff.mp ⟨40,hfree⟩
  exact ⟨emptyGroup_sane,hfree,a',b,n,he,hb,(hblock a' b n he).1⟩

end Ext2fsX.Balloc
