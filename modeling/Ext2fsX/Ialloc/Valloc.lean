import Ext2fsX.Ialloc.NewInode

namespace Ext2fsX.Ialloc

open Balloc (findFirstZeroBit findFirstZeroBit_clear sub16 sub32)
open Function (update update_self update_of_ne)

/-- What `ext2_vfree` and `ext2_free_inode` read of the in-core inode they are given. -/
structure Incore where
  number : ℕ
  nlink : ℕ

variable (g : Geometry) (a : Inodes)

def freeInode (ip : Incore) (dir : Bool) : Inodes :=
  if ip.nlink≠0 then a
  else if !freeInodeOk g ip.number then a
  else freeInodeFinish g a dir ip.number

/-- The number is checked, and the inode of `pvp` is freed under the mode given. `none` is the
panic. -/
def vfree (pip : Incore) (ino : ℕ) (dir : Bool) : Option Inodes :=
  if g.inodesPerGroup*g.groupsCount < ino then none else some (freeInode g a pip dir)

inductive Valloc where
  | again
  | panic
  | enospc (a : Inodes)
  | failed (a : Inodes)
  | ok (a : Inodes) (ino : ℕ)

/-- `vget` says of every number whether `EXT2_VGET` returns it. -/
def valloc (blocks : ℕ → ℕ) (pip : Incore) (dir : Bool)
    (vget : ℕ → Bool) (rounds : ℕ) : Valloc :=
  if a.sFree=0 then .enospc a
  else
    match newInode g a blocks (g.groupOf pip.number) dir rounds with
    | .again => .again
    | .zero b => .enospc b
    | .got b ino =>
      if vget ino then .ok b ino
      else
        match vfree g b pip ino dir with
        | none => .panic
        | some c => .failed c

/-- The counters are held in fields of 16 and 32 bits. -/
structure Fits : Prop where
  free : ∀ i,a.bgFree i<2^16
  dirs : ∀ i,a.bgDirs i<2^16
  total : a.sFree<2^32

/-- The bitmaps and the counters of `c` are those of `a`. -/
structure Undone (a c : Inodes) : Prop where
  bits : c.bitmap=a.bitmap
  free : c.bgFree=a.bgFree
  dirs : c.bgDirs=a.bgDirs
  dircount : c.dircount=a.dircount
  total : c.sFree=a.sFree

/-- The policy chooses its group, where its bit is the first clear one. -/
def Next (blocks : ℕ → ℕ) (dg : ℕ) (dir : Bool) (ino : ℕ) : Prop :=
  (newInodeStart g a blocks dg dir).map Prod.fst=some (g.groupOf ino) ∧
    findFirstZeroBit (a.bitmap (g.groupOf ino)) 0 g.inodesPerGroup=g.bitOf ino

variable {g : Geometry} {dir : Bool}

variable {b : Inodes} {dg ino rounds : ℕ}

theorem newInodeFinish_got {a : Inodes} {i last : ℕ}
    (h : newInodeFinish g a dir i last=.got b ino) :
    let j := findFirstZeroBit (a.bitmap i) 0 g.inodesPerGroup
    ino=g.inodeAt i j ∧ Took g a b dir i j ∧ 11 ≤ ino%2^32 ∧ ino%2^32≤g.inodesCount := by
  intro j
  unfold newInodeFinish at h
  by_cases hj : j<g.inodesPerGroup
  · rw [if_pos hj] at h
    have hclear := findFirstZeroBit_clear (a.bitmap i) 0 g.inodesPerGroup hj
    rw [Nat.mul_zero,Nat.zero_add] at hclear
    rw [hclear,if_neg (by decide)] at h
    split at h
    · cases h
    · next hok =>
      cases h
      refine ⟨rfl,⟨hclear,hj,rfl,rfl,rfl,rfl,rfl⟩,?_,by omega⟩
      rw [Int.bmod_def] at hok
      omega
  · rw [if_neg hj] at h
    split at h <;> cases h

variable {blocks : ℕ → ℕ}

theorem attempt_of_newInode {a : Inodes} (h : newInode g a blocks dg dir rounds=.got b ino) :
    attempt g a blocks dg dir=.got b ino := by
  induction rounds with
  | zero => cases h
  | succ rounds ih =>
    unfold newInode at h
    cases he : attempt g a blocks dg dir with
    | again =>
      rw [he] at h
      exact he ▸ ih h
    | zero c =>
      rw [he] at h
      cases h
    | got c n =>
      rw [he] at h
      exact h

theorem newInode_got {a : Inodes} (h : newInode g a blocks dg dir rounds=.got b ino) :
    Next g a blocks dg dir ino ∧ 11 ≤ ino ∧ Took g a b dir (g.groupOf ino) (g.bitOf ino) := by
  have ha := attempt_of_newInode h
  unfold attempt at ha
  cases hstart : newInodeStart g a blocks dg dir with
  | none =>
    rw [hstart] at ha
    cases ha
  | some c =>
    obtain ⟨i,last⟩ := c
    rw [hstart] at ha
    dsimp only at ha
    cases hfin : newInodeFinish g a dir i last with
    | got b' ino' =>
      rw [hfin] at ha
      cases ha
      obtain ⟨hino,ht,h11,-⟩ := newInodeFinish_got hfin
      obtain ⟨hg,hb⟩ := g.of_inodeAt i _ ht.inside
      rw [← hino] at hg hb
      refine ⟨⟨?_,?_⟩,by omega,?_⟩
      · rw [hstart,hg]
        rfl
      · rw [hg,hb]
      · rw [hg,hb]
        exact ht
    | _ =>
      rw [hfin] at ha
      cases ha

theorem Next.unique {a : Inodes} {m n : ℕ} (hm : Next g a blocks dg dir m)
    (hn : Next g a blocks dg dir n) (h1 : 1 ≤ m) (h2 : 1 ≤ n) : m=n := by
  have hg : g.groupOf m=g.groupOf n := by
    have h := hm.1.symm.trans hn.1
    exact Option.some.inj h
  have hb : g.bitOf m=g.bitOf n := by
    rw [← hm.2,← hn.2,hg]
  rw [← g.inodeAt_of m h1,← g.inodeAt_of n h2,hg,hb]

theorem Took.undone {a c : Inodes} {i j : ℕ} (hf : Fits a) (ht : Took g a b dir i j)
    (hg : Gave g b c dir i j) : Undone a c := by
  have hfree := hf.free i
  have hdirs := hf.dirs i
  have htotal := hf.total
  constructor
  · rw [hg.bits,ht.bits,Function.update_idem,update_self,Function.update_idem,← ht.clear,
      Function.update_eq_self,Function.update_eq_self]
  · have hx : (sub16 (a.bgFree i) 1+1)%2^16=a.bgFree i := by
      unfold sub16
      omega
    rw [hg.free,ht.free,Function.update_idem,update_self,hx,Function.update_eq_self]
  · cases dir with
    | false => rw [hg.used,ht.used,if_neg (by decide),if_neg (by decide)]
    | true =>
      have hx : sub16 ((a.bgDirs i+1)%2^16) 1=a.bgDirs i := by
        unfold sub16
        omega
      rw [hg.used,ht.used,if_pos rfl,if_pos rfl,Function.update_idem,update_self,hx,
        Function.update_eq_self]
  · cases dir with
    | false => rw [hg.alldirs,ht.alldirs,if_neg (by decide),if_neg (by decide)]
    | true =>
      rw [hg.alldirs,ht.alldirs,if_pos rfl,if_pos rfl]
      omega
  · rw [hg.all,ht.all]
    unfold sub32
    omega

/-- `ext2_free_inode` leaves every bit but that of its own inode. -/
theorem freeInode_bitmap (g : Geometry) (a : Inodes) (ip : Incore) (dir : Bool) (i j : ℕ)
    (h : (freeInode g a ip dir).bitmap i j≠a.bitmap i j) :
    ip.nlink=0 ∧ i=g.groupOf ip.number ∧ j=g.bitOf ip.number := by
  unfold freeInode at h
  split at h
  · exact absurd rfl h
  next hn =>
  split at h
  · exact absurd rfl h
  refine ⟨not_not.mp hn,?_⟩
  unfold freeInodeFinish at h
  dsimp only at h
  split at h
  · by_contra hne
    apply h
    change update a.bitmap _ (update _ _ false) i j=a.bitmap i j
    by_cases hi : i=g.groupOf ip.number
    · have hj : j≠g.bitOf ip.number := fun hj => hne ⟨hi,hj⟩
      rw [hi,update_self,update_of_ne hj]
    · rw [update_of_ne hi]
  · exact absurd rfl h

theorem valloc_failed {a c : Inodes} {pip : Incore} {vget : ℕ → Bool}
    (h : valloc g a blocks pip dir vget rounds=.failed c) :
    ∃ b ino,newInode g a blocks (g.groupOf pip.number) dir rounds=.got b ino ∧
      c=freeInode g b pip dir := by
  unfold valloc at h
  split at h
  · cases h
  cases hn : newInode g a blocks (g.groupOf pip.number) dir rounds with
  | got b ino =>
    rw [hn] at h
    dsimp only [vfree] at h
    refine ⟨b,ino,rfl,?_⟩
    split at h
    · cases h
    split at h
    · cases h
    · next hv =>
      cases h
      split at hv
      · cases hv
      · exact (Option.some.inj hv).symm
  | _ =>
    rw [hn] at h
    cases h

/-- A failed call leaves bitmaps and counters as it found them exactly when the parent has no link
left and its own number is the next one. -/
theorem valloc_undone_iff (g : Geometry) (a c : Inodes) (blocks : ℕ → ℕ) (pip : Incore) (dir : Bool)
    (vget : ℕ → Bool) (rounds : ℕ) (hf : Fits a) (h1 : 1≤pip.number) (h2 : pip.number≤g.inodesCount)
    (hfail : valloc g a blocks pip dir vget rounds=.failed c) :
    Undone a c ↔
      pip.nlink=0 ∧ Next g a blocks (g.groupOf pip.number) dir pip.number := by
  obtain ⟨b,ino,hgot,rfl⟩ := valloc_failed hfail
  obtain ⟨hnext,h11,ht⟩ := newInode_got hgot
  have hset : b.bitmap (g.groupOf ino) (g.bitOf ino)=true := by
    rw [ht.bits,update_self,update_self]
  constructor
  · intro hu
    have hne : (freeInode g b pip dir).bitmap (g.groupOf ino) (g.bitOf ino)≠
        b.bitmap (g.groupOf ino) (g.bitOf ino) := by
      rw [hu.bits,ht.clear,hset]
      decide
    obtain ⟨hn,hi,hj⟩ := freeInode_bitmap g b pip dir _ _ hne
    have hsame : ino=pip.number := by
      rw [← g.inodeAt_of ino (by omega),← g.inodeAt_of pip.number h1,hi,hj]
    exact ⟨hn,hsame ▸ hnext⟩
  · rintro ⟨hn,hown⟩
    have hsame := hown.unique hnext h1 (by omega)
    have hgave : Gave g b (freeInode g b pip dir) dir (g.groupOf ino) (g.bitOf ino) := by
      have hok : freeInodeOk g pip.number=true := by
        simp only [freeInodeOk,Bool.and_eq_true,decide_eq_true_eq]
        omega
      unfold freeInode
      rw [if_neg (not_not.mpr hn),hok,hsame]
      exact freeInodeFinish_gave g b dir ino hset
    exact ht.undone hf hgave

def smallGroup : Geometry where
  groupsCount := 1
  inodesPerGroup := 16
  inodesCount := 16
  descPerBlock := 32
  groups_pos := by decide
  ipg_pos := by decide
  ipg_lt := by decide
  count_eq := by decide
  count_lt := by decide

def twelveUsed : Inodes where
  bitmap := fun _ j => decide (j<12)
  bgFree := fun _ => 4
  bgDirs := fun _ => 2
  sFree := 4
  dircount := 2
  descDirty := fun _ => false
  sDirt := false

theorem twelveUsed_fits : Fits twelveUsed :=
  ⟨fun _ => (by decide : 4<2^16),fun _ => (by decide : 2<2^16),by decide⟩

theorem valloc_undone_freed :
    ∃ c,valloc smallGroup twelveUsed (fun _ => 0) ⟨13,0⟩ true (fun _ => false) 1=.failed c ∧
      Undone twelveUsed c :=
  ⟨_,rfl,(valloc_undone_iff smallGroup twelveUsed _ (fun _ => 0) ⟨13,0⟩ true (fun _ => false) 1
    twelveUsed_fits (by decide) (by decide) rfl).mpr ⟨rfl,by decide,by decide⟩⟩

/-- A failed call keeps inode 13 marked. With inode 12, removed and still open, as its parent it
frees that as well. -/
theorem valloc_keeps :
    (∃ c,valloc smallGroup twelveUsed (fun _ => 0) ⟨2,3⟩ true (fun _ => false) 1=.failed c ∧
      c.bitmap 0 12=true ∧ c.sFree=3 ∧ ¬Undone twelveUsed c) ∧
    ∃ c,valloc smallGroup twelveUsed (fun _ => 0) ⟨12,0⟩ true (fun _ => false) 1=.failed c ∧
      c.bitmap 0 12=true ∧ c.bitmap 0 11=false ∧ ¬Undone twelveUsed c := by
  refine ⟨⟨_,rfl,rfl,rfl,fun hu => ?_⟩,⟨_,rfl,rfl,rfl,fun hu => ?_⟩⟩
  · have h := congrFun (congrFun hu.bits 0) 12
    exact absurd h (by decide)
  · have h := congrFun (congrFun hu.bits 0) 12
    exact absurd h (by decide)

end Ext2fsX.Ialloc
