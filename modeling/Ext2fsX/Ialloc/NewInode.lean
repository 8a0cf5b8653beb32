import Ext2fsX.Ialloc.Interleaving

namespace Ext2fsX.Ialloc

open Framework
open Function (update)
open Balloc (findFirstZeroBit findFirstZeroBit_lt findFirstZeroBit_clear findFirstZeroWords_set)

/-- `again`: more rounds of `repeat:` than were allowed. -/
inductive NewInode where
  | again
  | zero (a : Inodes)
  | got (a : Inodes) (ino : ℕ)

variable (g : Geometry) (a : Inodes)

def attempt (blocks : ℕ → ℕ) (dg : ℕ) (dir : Bool) : NewInode :=
  match newInodeStart g a blocks dg dir with
  | none => .zero a
  | some (i,last) =>
    match newInodeFinish g a dir i last with
    | .got b ino => .got b ino
    | .lost b => .zero b
    | .corrupted => .zero a
    | .again => .again

/-- `blocks` holds the free block counts and `dg` is the group of the parent directory. -/
def newInode (blocks : ℕ → ℕ) (dg : ℕ) (dir : Bool) : ℕ → NewInode
  | 0 => .again
  | rounds+1 =>
    match attempt g a blocks dg dir with
    | .again => newInode blocks dg dir rounds
    | r => r

def Geometry.Free (ino : ℕ) : Prop :=
  1 ≤ ino ∧ ino≤g.inodesCount ∧ a.bitmap (g.groupOf ino) (g.bitOf ino)=false

/-- The free inode of its group that `find_first_zero_bit` finds. -/
def Geometry.Lowest (ino : ℕ) : Prop :=
  g.Free a ino ∧ ∀ k,g.Free a k → g.groupOf k=g.groupOf ino → ino ≤ k

/-- A free inode past the reserved ones, whose bit is all that changed, or there was none and
nothing changed. -/
def Exact : NewInode → Prop
  | .again => False
  | .zero b => (¬∃ ino,g.Free a ino) ∧ b.bitmap=a.bitmap
  | .got b ino => g.Free a ino ∧ 11 ≤ ino ∧
      b.bitmap=update a.bitmap (g.groupOf ino) (update (a.bitmap (g.groupOf ino)) (g.bitOf ino) true)

variable (free blocks : ℕ → ℕ)

theorem dirSearch_kept (ave : ℤ) (n j k : ℕ) : dirSearch free blocks ave n j (some k)≠none := by
  induction n generalizing j k with
  | zero => simp [dirSearch]
  | succ n ih =>
    unfold dirSearch
    split
    · exact ih _ _
    · exact ih _ _

theorem dirSearch_none (ave : ℤ) (n j : ℕ)
    (h : dirSearch free blocks ave n j none=none) (i : ℕ) (h1 : j ≤ i) (h2 : i<n+j) :
    ¬(free i≠0 ∧ ave≤free i) := by
  induction n generalizing j with
  | zero => omega
  | succ n ih =>
    rintro ⟨hne,hav⟩
    unfold dirSearch at h
    by_cases hj : free j≠0 ∧ ave≤free j
    · rw [if_pos ⟨hj.1,hj.2,rfl⟩] at h
      exact dirSearch_kept _ _ _ _ _ _ h
    · rw [if_neg (fun hc => hj ⟨hc.1,hc.2.1⟩)] at h
      have hij : i≠j := by
        rintro rfl
        exact hj ⟨hne,hav⟩
      exact ih (j+1) h (by omega) (by omega) ⟨hne,hav⟩

variable {g : Geometry} {a : Inodes}

section

variable (h : FreeCounts g a)

include h

theorem avefreei_eq : avefreei g a=(a.sFree/g.groupsCount : ℕ) := by
  have hle := h.total_le
  rw [g.count_eq,Nat.mul_comm] at hle
  have hd := Nat.div_le_of_le_mul (Nat.mul_comm g.inodesPerGroup _ ▸ hle)
  have hlt := g.ipg_lt
  have hpos := Int.natCast_nonneg (a.sFree/g.groupsCount)
  apply Int.bmod_eq_of_le
  · omega
  · omega

theorem exists_average {c : ℕ} (hc : c<g.groupsCount) (hfree : a.bgFree c≠0) :
    ∃ i<g.groupsCount,a.bgFree i≠0 ∧ avefreei g a≤a.bgFree i := by
  rw [avefreei_eq h]
  by_contra hno
  have hless : ∀ i ∈ Finset.range g.groupsCount,a.bgFree i+1≤a.sFree/g.groupsCount := by
    intro i hi
    by_contra hn
    by_cases hz : a.bgFree i=0
    · -- the average is zero, and the group that has a free inode reaches it
      exact hno ⟨c,hc,hfree,by omega⟩
    · exact hno ⟨i,Finset.mem_range.mp hi,hz,by omega⟩
  have hsum := Finset.sum_le_card_nsmul _ _ _ hless
  have hmul := Nat.div_mul_le_self a.sFree g.groupsCount
  rw [Finset.sum_add_distrib,← h.total,Finset.card_range,smul_eq_mul,Finset.sum_const,
    Finset.card_range,smul_eq_mul,Nat.mul_comm g.groupsCount (a.sFree/g.groupsCount)] at hsum
  omega

theorem newInodeStart_none (blocks : ℕ → ℕ) {dg : ℕ} (dir : Bool)
    (hd : dg<g.groupsCount) (hn : newInodeStart g a blocks dg dir=none) : ∀ c<g.groupsCount,a.bgFree c=0 := by
  intro c hc
  by_contra hfree
  unfold newInodeStart at hn
  cases dir with
  | true =>
    obtain ⟨i,hi,hav⟩ := exists_average h hc hfree
    rw [if_pos rfl,Option.map_eq_none_iff] at hn
    exact dirSearch_none _ _ _ _ _ hn i (Nat.zero_le i) hi hav
  | false =>
    rw [if_neg (by decide)] at hn
    split at hn
    · cases hn
    · rw [Option.map_eq_none_iff,Option.or_eq_none_iff,linearSearch_eq] at hn
      have hz := firstAfter_none_all hd hn.2 c hc
      exact hfree (not_not.mp (of_decide_eq_false hz))

theorem FreeCounts.free_iff : (∃ ino,g.Free a ino) ↔ ∃ i<g.groupsCount,a.bgFree i≠0 := by
  constructor
  · rintro ⟨ino,h1,h2,hbit⟩
    have hi := g.groupOf_lt ino h1 h2
    refine ⟨g.groupOf ino,hi,?_⟩
    have hpos := clearBits_pos _ _ _ (g.bitOf_lt ino) hbit
    rw [h.group _ hi]
    omega
  · rintro ⟨i,hi,hfree⟩
    rw [h.group i hi] at hfree
    obtain ⟨j,hj,hbit⟩ := exists_clear_of_pos _ _ (Nat.pos_of_ne_zero hfree)
    obtain ⟨hg,hb⟩ := g.of_inodeAt i j hj
    exact ⟨g.inodeAt i j,Nat.le_add_left 1 _,g.inodeAt_le i j hi hj,by rw [hg,hb]; exact hbit⟩

/-- A group with free inodes gives its lowest one, if that passes the test of the number. -/
theorem FreeCounts.finish (dir : Bool) {i : ℕ} (last : ℕ) (hi : i<g.groupsCount)
    (hfree : a.bgFree i≠0) : ∃ ino,g.Lowest a ino ∧ g.groupOf ino=i ∧
      let bits := update a.bitmap i (update (a.bitmap i) (g.bitOf ino) true)
      (11 ≤ ino ∧ ino<2^31 → ∃ b,newInodeFinish g a dir i last=.got b ino ∧ b.bitmap=bits) ∧
      (¬(11 ≤ ino ∧ ino<2^31) → newInodeFinish g a dir i last=.lost { a with bitmap := bits }) := by
  rw [h.group i hi] at hfree
  obtain ⟨q,hq,hclear⟩ := exists_clear_of_pos _ _ (Nat.pos_of_ne_zero hfree)
  have hlt := findFirstZeroBit_lt (a.bitmap i) g.inodesPerGroup q hq hclear
  have hbit := findFirstZeroBit_clear (a.bitmap i) 0 g.inodesPerGroup hlt
  have hset (k : ℕ) (hk : k<findFirstZeroBit (a.bitmap i) 0 g.inodesPerGroup) : a.bitmap i k=true := by
    simpa using findFirstZeroWords_set (a.bitmap i) _ _ 0 k hk
  rw [Nat.mul_zero,Nat.zero_add] at hbit
  unfold newInodeFinish
  generalize findFirstZeroBit (a.bitmap i) 0 g.inodesPerGroup=j at *
  obtain ⟨hg,hb⟩ := g.of_inodeAt i j hlt
  have hle := g.inodeAt_le i j hi hlt
  have hcount := g.count_lt
  refine ⟨g.inodeAt i j,⟨⟨Nat.le_add_left 1 _,hle,by rw [hg,hb]; exact hbit⟩,?_⟩,hg,?_,?_⟩
  · rintro k ⟨h1,-,hk⟩ hgk
    rw [hg] at hgk
    rw [hgk] at hk
    rw [←g.inodeAt_of k h1,hgk]
    have hkj : ¬g.bitOf k<j := fun hc => by simp [hset _ hc] at hk
    unfold Geometry.inodeAt
    omega
  · rintro ⟨hr,hint⟩
    simp only [hlt,if_true,hbit,Bool.false_eq_true,if_false,inodeAt_checked g hi hlt hr hint,hb]
    exact ⟨_,rfl,rfl⟩
  · intro hbad
    have hneg : (g.inodeAt i j : ℤ).bmod (2^32)<11 := by
      rw [Int.bmod_def]
      omega
    simp only [hlt,if_true,hbit,Bool.false_eq_true,if_false,hneg,true_or,hb]

theorem FreeCounts.attempt (hlow : ∀ ino,g.Lowest a ino → 11 ≤ ino ∧ ino<2^31)
    (blocks : ℕ → ℕ) {dg : ℕ} (dir : Bool) (hd : dg<g.groupsCount) :
    Exact g a (attempt g a blocks dg dir) := by
  unfold Ialloc.attempt
  cases hstart : newInodeStart g a blocks dg dir with
  | none =>
    have hnone := newInodeStart_none h blocks dir hd hstart
    refine ⟨?_,rfl⟩
    rw [h.free_iff]
    rintro ⟨i,hi,hfree⟩
    exact hfree (hnone i hi)
  | some c =>
    obtain ⟨i,last⟩ := c
    obtain ⟨hi,hfree⟩ := newInodeStart_some g a blocks dg dir i last hd hstart
    obtain ⟨ino,hl,rfl,hgot,-⟩ := h.finish dir last hi hfree
    obtain ⟨b,he,hb⟩ := hgot (hlow ino hl)
    dsimp only
    rw [he]
    exact ⟨hl.1,(hlow ino hl).1,hb⟩

/-- A file next to its parent takes the lowest inode of the group, and is lost with a number that
the test refuses. -/
theorem FreeCounts.loses {ino : ℕ} (hl : g.Lowest a ino) (hbad : ¬(11 ≤ ino ∧ ino<2^31))
    (blocks : ℕ → ℕ) (rounds : ℕ) :
    ¬Exact g a (newInode g a blocks (g.groupOf ino) false (rounds+1)) := by
  obtain ⟨h1,h2,hbit⟩ := hl.1
  have hi := g.groupOf_lt ino h1 h2
  have hfree : a.bgFree (g.groupOf ino)≠0 := by
    rw [h.group _ hi]
    exact Nat.ne_of_gt (clearBits_pos _ _ _ (g.bitOf_lt ino) hbit)
  obtain ⟨k,hk,hg,-,hlost⟩ := h.finish false (g.groupOf ino) hi hfree
  obtain rfl : k=ino := Nat.le_antisymm (hk.2 ino hl.1 hg.symm) (hl.2 k hk.1 hg)
  have hstart : newInodeStart g a blocks (g.groupOf k) false=some (g.groupOf k,g.groupOf k) := by
    simp [newInodeStart,hfree]
  unfold newInode Ialloc.attempt
  rw [hstart]
  dsimp only
  rw [hlost hbad]
  exact fun he => he.1 ⟨k,hl.1⟩

end

theorem newInode_of_exact {blocks : ℕ → ℕ} {dg : ℕ} {dir : Bool} (rounds : ℕ)
    (h : Exact g a (attempt g a blocks dg dir)) :
    newInode g a blocks dg dir (rounds+1)=attempt g a blocks dg dir := by
  unfold newInode
  cases he : attempt g a blocks dg dir with
  | again =>
    rw [he] at h
    exact h.elim
  | _ => rfl

theorem oneFree_free {τ : Type} {ino k : ℕ} (h1 : 1 ≤ ino) (hf : g.Free (oneFree g τ ino).fs k) :
    k=ino := by
  obtain ⟨h,-,hbit⟩ := hf
  simp only [oneFree,Bool.not_eq_false',Bool.and_eq_true,decide_eq_true_eq] at hbit
  rw [←g.inodeAt_of k h,hbit.1,hbit.2,g.inodeAt_of ino h1]

end Ext2fsX.Ialloc
