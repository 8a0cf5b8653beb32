import Ext2fsX.Mount.InodeTable
import Mathlib.Algebra.BigOperators.Group.Finset.Piecewise
import Mathlib.Algebra.Order.BigOperators.Group.Finset
import Mathlib.Data.List.GetD
import Mathlib.Order.Interval.Finset.Nat

namespace Ext2fsX.Mount

section Label

/-- A string: its bytes before the terminator. -/
structure Label where
  bytes : List UInt8
  ne_zero : ∀ c∈bytes,c≠0

def invalChars : List UInt8 := [34,42,47,58,59,60,61,62,63,91,92,93,124]

/-- The test of `ext2_check_label`; `strchr` finds the terminator as well. -/
def refused (i : ℕ) (c : UInt8) : Bool :=
  decide (c.toNat<32+if i=0 then 1 else 0) || c==0 || invalChars.contains c

def labelLoop (label : List UInt8) : ℕ → ℕ → UInt8 → ℕ × UInt8
  | 0,i,c => (i,c)
  | n+1,i,_ =>
    let c := label.getD i 0
    if refused i c then (i,c) else labelLoop label n (i+1) c

def checkLabel (l : Label) : ℕ :=
  let r := labelLoop l.bytes 16 0 0
  if r.1≠0 ∧ r.2=0 then 0 else 22

/-- What `ext2_setattrfs` writes to: `s_volume_name` and `s_dirt`. -/
structure Named where
  volumeName : Vector UInt8 16
  dirt : Bool

def setattrfs (fs : Named) (l : Label) : Named × ℕ :=
  let length := if 16<l.bytes.length then 16 else l.bytes.length
  if length≠0 ∧ checkLabel l=0 then
    (⟨Vector.ofFn (fun i : Fin 16 => if i.val<length then l.bytes.getD i 0 else 0),true⟩,0)
  else (fs,22)

def Label.Allowed (l : Label) : Prop := ∀ i c,i<16 → l.bytes[i]?=some c → refused i c=false

/-- The label is stored where it is one to be allowed, and refused without a trace where not. -/
structure Stores (fs : Named) (l : Label) : Prop where
  stored : l.bytes≠[] → l.Allowed →
    setattrfs fs l=(⟨Vector.ofFn (fun i : Fin 16 => l.bytes.getD i 0),true⟩,0)
  kept : ¬(l.bytes≠[] ∧ l.Allowed) → setattrfs fs l=(fs,22)

theorem labelLoop_ends (label : List UInt8) (n i : ℕ) (c : UInt8) :
    ∃ k,i≤k ∧ k ≤ i+n ∧ (labelLoop label n i c).1=k ∧
      (∀ j,i≤j → j<k → refused j (label.getD j 0)=false) ∧
      (k < i+n → (labelLoop label n i c).2=label.getD k 0 ∧ refused k (label.getD k 0)=true) ∧
      (k=i+n → 0<n → (labelLoop label n i c).2=label.getD (k-1) 0) := by
  induction n generalizing i c with
  | zero => exact ⟨i,by omega,by omega,rfl,by omega,by omega,by omega⟩
  | succ n ih =>
    unfold labelLoop
    by_cases hr : refused i (label.getD i 0)=true
    · rw [if_pos hr]
      exact ⟨i,by omega,by omega,rfl,by omega,fun _ => ⟨rfl,hr⟩,by omega⟩
    rw [if_neg hr]
    obtain ⟨k,hk,hle,h1,hall,hstop,hend⟩ := ih (i+1) (label.getD i 0)
    refine ⟨k,by omega,by omega,h1,?_,fun h => hstop (by omega),fun h _ => ?_⟩
    · intro j hj hlt
      by_cases he : j=i
      · rw [he]
        exact Bool.eq_false_iff.mpr hr
      · exact hall j (by omega) hlt
    · cases n with
      | zero =>
        rw [show k-1=i by omega]
        rfl
      | succ n => exact hend (by omega) (by omega)

theorem refused_zero (i : ℕ) : refused i 0=true := by simp [refused]

theorem checkLabel_eq_zero (l : Label) :
    checkLabel l=0 ↔ l.bytes≠[] ∧ l.Allowed ∧ l.bytes.length<16 := by
  obtain ⟨k,-,hle,h1,hall,hstop,hend⟩ := labelLoop_ends l.bytes 16 0 0
  have hbelow : k≤l.bytes.length := by
    by_contra hn
    have h := hall l.bytes.length (by omega) (by omega)
    rw [List.getD_eq_default _ _ le_rfl,refused_zero] at h
    cases h
  have hzero (j : ℕ) (hj : j<l.bytes.length) : l.bytes.getD j 0≠0 := by
    rw [List.getD_eq_getElem _ _ hj]
    exact l.ne_zero _ (List.getElem_mem hj)
  have hallowed : l.Allowed ↔ k=16 ∨ k=l.bytes.length := by
    constructor
    · intro ha
      by_contra hn
      have hr := (hstop (by omega)).2
      rw [List.getD_eq_getElem _ _ (by omega),
        ha k _ (by omega) (List.getElem?_eq_getElem (by omega))] at hr
      cases hr
    · intro hk i c hi hc
      obtain ⟨hlt,rfl⟩ := List.getElem?_eq_some_iff.mp hc
      have h := hall i (by omega) (by omega)
      rwa [List.getD_eq_getElem _ _ hlt] at h
  have hiff : checkLabel l=0 ↔ (labelLoop l.bytes 16 0 0).1≠0 ∧ (labelLoop l.bytes 16 0 0).2=0 := by
    unfold checkLabel
    dsimp only
    split_ifs with h
    · exact iff_of_true rfl h
    · exact iff_of_false (by decide) h
  rw [hiff,h1,hallowed,← List.length_pos_iff]
  by_cases hk : k<16
  · rw [(hstop (by omega)).1]
    constructor
    · rintro ⟨h0,hc⟩
      have hn : ¬k<l.bytes.length := fun hn => hzero k hn hc
      omega
    · rintro ⟨hpos,hk',-⟩
      obtain rfl : k=l.bytes.length := by omega
      exact ⟨by omega,List.getD_eq_default _ _ le_rfl⟩
  · rw [hend (by omega) (by omega)]
    refine iff_of_false (fun h => hzero (k-1) (by omega) h.2) (by omega)

/-- Exactly when the label has less than 16 bytes or one of its first 16 is refused. -/
theorem setattrfs_stores_iff (fs : Named) (l : Label) :
    Stores fs l ↔ l.bytes.length<16 ∨ ¬l.Allowed := by
  have hrefuse (h : ¬checkLabel l=0) : setattrfs fs l=(fs,22) := if_neg (fun hc => h hc.2)
  constructor
  · intro h
    by_contra hn
    rw [not_or,not_not] at hn
    have hs := h.stored (List.ne_nil_of_length_pos (by omega)) hn.2
    rw [hrefuse (fun hc => hn.1 ((checkLabel_eq_zero l).mp hc).2.2)] at hs
    cases (Prod.mk.inj hs).2
  · intro h
    refine ⟨fun hne ha => ?_,fun hn => hrefuse (fun hc => ?_)⟩
    · have hlt : l.bytes.length<16 := h.resolve_right (not_not.mpr ha)
      have hl : (if 16<l.bytes.length then 16 else l.bytes.length)=l.bytes.length :=
        if_neg (by omega)
      simp only [setattrfs,hl]
      rw [if_pos ⟨fun h0 => hne (List.length_eq_zero_iff.mp h0),
        (checkLabel_eq_zero l).mpr ⟨hne,ha,hlt⟩⟩]
      congr 3
      funext i
      split_ifs with hi
      · rfl
      · exact (List.getD_eq_default _ _ (by omega)).symm
    · obtain ⟨hne,ha,-⟩ := (checkLabel_eq_zero l).mp hc
      exact hn ⟨hne,ha⟩

def letters (n : ℕ) : Label where
  bytes := List.replicate n 97
  ne_zero c hc := by
    rw [List.eq_of_mem_replicate hc]
    decide

theorem setattrfs_letters : ¬Stores ⟨Vector.replicate 16 0,false⟩ (letters 16) ∧
    (letters 16).Allowed ∧ (setattrfs ⟨Vector.replicate 16 0,false⟩ (letters 16)).2=22 := by
  have ha : (letters 16).Allowed := by
    intro i c hi hc
    rw [List.eq_of_mem_replicate (List.mem_of_getElem? hc)]
    cases i <;> rfl
  have hr : (setattrfs ⟨Vector.replicate 16 0,false⟩ (letters 16)).2=22 := by decide +kernel
  refine ⟨fun h => ?_,ha,hr⟩
  rw [h.stored (by decide) ha] at hr
  cases hr

end Label

section Statistics

def rootLoop (b : ℕ) : ℕ → ℕ → Bool
  | 0,_ => false
  | n+1,a => if a=1 then true else if a%b≠0 then false else rootLoop b n (a/b)

def testRoot (a b : ℕ) : Bool := if a=0 then true else rootLoop b a a

def groupSparse (i : ℕ) : Bool := testRoot i 3 || testRoot i 5 || testRoot i 7

structure Counters where
  freeBlocksCount : UInt32
  rBlocksCount : UInt32
  inodesCount : UInt32
  freeInodesCount : UInt32

structure Statistics where
  bsize : ℕ
  iosize : ℕ
  blocks : ℕ
  bfree : ℕ
  bavail : ℕ
  files : ℕ
  ffree : ℕ

def sparseCount : ℕ → ℕ
  | 0 => 0
  | n+1 => sparseCount n+if groupSparse n then 1 else 0

variable (es : Superblock)

/-- `ext2_getattrfs`, in `unsigned long`. -/
def getattrfs (fs : Fs) (c : Counters) : Statistics :=
  let nsb := if es.featureRoCompat &&& 1≠0 then sparseCount fs.groupsCount else fs.groupsCount
  let overhead := (es.firstDataBlock.toNat+nsb*(1+fs.dbpg)+fs.groupsCount*(1+1+fs.itpg))%2^64
  { bsize := fs.fsize
    iosize := fs.blocksize
    blocks := (es.blocksCount.toNat+2^64-overhead)%2^64
    bfree := c.freeBlocksCount.toNat
    bavail := (c.freeBlocksCount.toNat+2^64-c.rBlocksCount.toNat)%2^64
    files := c.inodesCount.toNat
    ffree := c.freeInodesCount.toNat }

/-- The group has a copy of the superblock and of the descriptors. -/
def Carries (i : ℕ) : Prop :=
  es.featureRoCompat &&& 1=0 ∨ i=0 ∨ ∃ k,i=3^k ∨ i=5^k ∨ i=7^k

def Fs.tableBlocks (fs : Fs) : ℕ := (fs.ipg*fs.isize) ⌈/⌉ fs.blocksize

/-- Each group has its own blocks for the copies, the bitmaps and the table. These are in use, and
what is not in use has been counted. -/
structure Consistent (fs : Fs) (c : Counters) where
  copies : Finset ℕ
  own : ℕ → Finset ℕ
  used : Finset ℕ
  groups : 0<fs.groupsCount
  mem_copies : ∀ i,i∈copies ↔ i<fs.groupsCount ∧ Carries es i
  card_own : ∀ i<fs.groupsCount,
    (own i).card=(if i∈copies then 1+fs.dbpg else 0)+(2+fs.tableBlocks)
  apart : ∀ i<fs.groupsCount,∀ j<fs.groupsCount,i≠j → Disjoint (own i) (own j)
  own_used : ∀ i<fs.groupsCount,own i⊆used
  used_valid : used⊆Finset.Ico es.firstDataBlock.toNat es.blocksCount.toNat
  free : c.freeBlocksCount.toNat=
    (Finset.Ico es.firstDataBlock.toNat es.blocksCount.toNat\used).card

variable {es : Superblock} {fs : Fs} {c : Counters}

structure Reports (s : Consistent es fs c) (r : Statistics) : Prop where
  avail : r.bavail=c.freeBlocksCount.toNat-c.rBlocksCount.toNat
  order : r.bavail ≤ r.bfree ∧ r.bfree ≤ r.blocks
  blocks : r.blocks=es.blocksCount.toNat-(es.firstDataBlock.toNat+s.copies.card*(1+fs.dbpg)+
    fs.groupsCount*(2+fs.tableBlocks))

theorem rootLoop_iff {b : ℕ} (hb : 1<b) (n a : ℕ) (h0 : 0<a) (hn : a≤n) :
    rootLoop b n a=true ↔ ∃ k,a=b^k := by
  induction n generalizing a with
  | zero => omega
  | succ n ih =>
    unfold rootLoop
    by_cases h1 : a=1
    · rw [if_pos h1]
      exact iff_of_true rfl ⟨0,h1⟩
    rw [if_neg h1]
    by_cases hd : a%b=0
    · obtain ⟨q,rfl⟩ := Nat.dvd_of_mod_eq_zero hd
      have hq : 0<q := Nat.pos_of_mul_pos_left h0
      have hlt : q<b*q := (Nat.lt_mul_iff_one_lt_left hq).mpr hb
      rw [if_neg (not_not.mpr hd),Nat.mul_div_cancel_left q (by omega),ih q hq (by omega)]
      constructor
      · rintro ⟨k,rfl⟩
        exact ⟨k+1,(Nat.pow_succ').symm⟩
      · rintro ⟨k,hk⟩
        cases k with
        | zero => exact absurd hk h1
        | succ k => exact ⟨k,Nat.eq_of_mul_eq_mul_left (by omega) (hk.trans Nat.pow_succ')⟩
    · rw [if_pos hd]
      refine iff_of_false (by decide) ?_
      rintro ⟨k,rfl⟩
      cases k with
      | zero => exact h1 rfl
      | succ k => exact hd (Nat.mod_eq_zero_of_dvd (dvd_pow_self b (by omega)))

theorem groupSparse_iff (i : ℕ) : groupSparse i=true ↔ i=0 ∨ ∃ k,i=3^k ∨ i=5^k ∨ i=7^k := by
  unfold groupSparse testRoot
  by_cases h0 : i=0
  · simp [h0]
  · simp only [h0,if_false,Bool.or_eq_true,false_or,or_assoc,exists_or,
      rootLoop_iff (by decide : 1<3) i i (by omega) le_rfl,
      rootLoop_iff (by decide : 1<5) i i (by omega) le_rfl,
      rootLoop_iff (by decide : 1<7) i i (by omega) le_rfl]

theorem sparseCount_eq (n : ℕ) :
    sparseCount n=((Finset.range n).filter (fun i => groupSparse i=true)).card := by
  rw [Finset.card_filter]
  induction n with
  | zero => rfl
  | succ n ih => rw [sparseCount,Finset.sum_range_succ,ih]

namespace Consistent

variable (s : Consistent es fs c)

theorem copies_card : s.copies.card=
    if es.featureRoCompat &&& 1≠0 then sparseCount fs.groupsCount else fs.groupsCount := by
  by_cases hf : es.featureRoCompat &&& 1=0
  · rw [if_neg (not_not.mpr hf),← Finset.card_range fs.groupsCount]
    congr 1
    ext i
    rw [s.mem_copies,Finset.mem_range]
    exact and_iff_left (.inl hf)
  · rw [if_pos hf,sparseCount_eq]
    congr 1
    ext i
    rw [s.mem_copies,Finset.mem_filter,Finset.mem_range,groupSparse_iff,Carries]
    simp [hf]

theorem overhead_le : es.firstDataBlock.toNat+s.copies.card*(1+fs.dbpg)+
    fs.groupsCount*(2+fs.tableBlocks)+c.freeBlocksCount.toNat≤es.blocksCount.toNat := by
  have hsub : (Finset.range fs.groupsCount).biUnion s.own⊆s.used :=
    Finset.biUnion_subset.mpr (fun i hi => s.own_used i (Finset.mem_range.mp hi))
  have hown : ((Finset.range fs.groupsCount).biUnion s.own).card=
      s.copies.card*(1+fs.dbpg)+fs.groupsCount*(2+fs.tableBlocks) := by
    rw [Finset.card_biUnion (fun i hi j hj =>
        s.apart i (Finset.mem_range.mp hi) j (Finset.mem_range.mp hj)),
      Finset.sum_congr rfl (fun i hi => s.card_own i (Finset.mem_range.mp hi)),
      Finset.sum_add_distrib,Finset.sum_const,Finset.card_range,smul_eq_mul,
      ← Finset.sum_filter,Finset.sum_const,smul_eq_mul]
    congr 3
    ext i
    rw [Finset.mem_filter,Finset.mem_range]
    exact and_iff_right_of_imp (fun hi => ((s.mem_copies i).mp hi).1)
  have hused := Finset.card_le_card hsub
  have hfree := Finset.card_sdiff_add_card_eq_card s.used_valid
  rw [← s.free,Nat.card_Ico] at hfree
  have hpos : 0 < s.used.card := by
    refine lt_of_lt_of_le ?_ hused
    rw [hown]
    exact Nat.add_pos_right _ (Nat.mul_pos s.groups (by omega))
  omega

end Consistent

theorem itpg_le (h : Tables fs) : fs.itpg≤fs.tableBlocks := by
  have hpos : 0<fs.ipb := by
    have h2 := h.ipb
    omega
  rw [h.itpg,Fs.tableBlocks,h.size,Nat.ceilDiv_eq_add_pred_div]
  calc fs.ipg/fs.ipb = fs.ipg*128/(fs.ipb*128) := (Nat.mul_div_mul_right _ _ (by decide)).symm
    _ ≤ _ := Nat.div_le_div_right (by
      have hm := Nat.mul_le_mul_left fs.ipg h.isize
      omega)

/-- Exactly when no reserved block is in use and the tables have the length that they would have
with 128 bytes for an inode and no rest. -/
theorem getattrfs_reports_iff (env : Env) (s : Consistent es fs c) (h : computeSbData env es=.ok fs)
    (hd : fs.oversized=false) : Reports s (getattrfs es fs c) ↔
      c.rBlocksCount ≤ c.freeBlocksCount ∧ fs.tableBlocks=fs.ipg/fs.ipb := by
  have ht := tables_of_accepted h hd
  have hle := s.overhead_le
  have hitpg := Nat.mul_le_mul_left fs.groupsCount (Nat.add_le_add_left (itpg_le ht) 2)
  have hcount := es.blocksCount.toNat_lt
  have hr := c.rBlocksCount.toNat_lt
  have hblocks : (getattrfs es fs c).blocks=es.blocksCount.toNat-
      (es.firstDataBlock.toNat+s.copies.card*(1+fs.dbpg)+fs.groupsCount*(2+fs.itpg)) := by
    simp only [getattrfs,← s.copies_card,Nat.reduceAdd]
    omega
  have havail : (getattrfs es fs c).bavail=
      (c.freeBlocksCount.toNat+2^64-c.rBlocksCount.toNat)%2^64 := rfl
  rw [← ht.itpg,UInt32.le_iff_toNat_le]
  constructor
  · intro hrep
    have ha := hrep.avail
    have hb := hrep.blocks
    have heq : fs.groupsCount*(2+fs.tableBlocks)=fs.groupsCount*(2+fs.itpg) := by omega
    have hi := Nat.eq_of_mul_eq_mul_left s.groups heq
    omega
  · rintro ⟨hres,heq⟩
    rw [← heq] at hblocks
    refine ⟨by omega,⟨?_,?_⟩,hblocks⟩
    · change _ ≤ c.freeBlocksCount.toNat
      omega
    · rw [hblocks]
      change c.freeBlocksCount.toNat≤_
      omega

def tinyDisk : Superblock :=
  { smallDisk with blocksCount := 17, blocksPerGroup := 16, inodesPerGroup := 8 }

def tinyFs : Fs := { geometry smallMount tinyDisk with dircount := 2 }

def tinyState (reserved : UInt32) : Consistent tinyDisk tinyFs ⟨2,reserved,8,0⟩ where
  copies := {0}
  own _ := Finset.Ico 1 6
  used := Finset.Ico 1 15
  groups := by decide
  mem_copies i := by
    rw [Finset.mem_singleton,show tinyFs.groupsCount=1 from rfl]
    exact ⟨fun h => ⟨by omega,.inr (.inl h)⟩,fun h => by omega⟩
  card_own i hi := by
    rw [show tinyFs.groupsCount=1 from rfl] at hi
    obtain rfl : i=0 := by omega
    decide
  apart i hi j hj := by
    rw [show tinyFs.groupsCount=1 from rfl] at hi hj
    omega
  own_used _ _ := by decide
  used_valid := by decide
  free := rfl

theorem getattrfs_tiny : Reports (tinyState 1) (getattrfs tinyDisk tinyFs ⟨2,1,8,0⟩) :=
  (getattrfs_reports_iff smallMount (tinyState 1) rfl rfl).mpr (by decide)

theorem getattrfs_reserved : (getattrfs tinyDisk tinyFs ⟨2,3,8,0⟩).bavail=2^64-1 ∧
    ¬Reports (tinyState 3) (getattrfs tinyDisk tinyFs ⟨2,3,8,0⟩) :=
  ⟨by decide,fun h => absurd h.avail (by decide)⟩

end Statistics

end Ext2fsX.Mount
