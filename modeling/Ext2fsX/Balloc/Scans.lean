import Ext2fsX.Balloc.NewBlock
import Ext2fsX.Mount.Geometry

namespace Ext2fsX.Balloc

open Framework

structure Span where
  first : ℕ
  count : ℕ

def Span.Within (s : Span) (blocksize : ℕ) : Prop :=
  ∀ b,s.first≤b → b < s.first+s.count → b<blocksize

variable (bits : ℕ → Bool)

/-- How many words `find_first_zero_bit` loads: it stops at the first with a clear bit. -/
def findFirstZeroLoads (rest : ℕ) : ℕ → ℕ → ℕ
  | 0,_ => if rest=0 then 0 else 1
  | n+1,p =>
    if ffz bits (64*p) 64<64 then 1
    else 1+findFirstZeroLoads rest n (p+1)

def findFirstZeroSpan (p size : ℕ) : Span :=
  ⟨8*p,8*findFirstZeroLoads bits (size%64) (size/64) p⟩

/-- The word with the offset, unless this is its first bit, and those of the call it ends with. -/
def findNextZeroSpan (size offset : ℕ) : Span :=
  let p := offset/64
  let bit := offset%64
  let left := fun q => (size+2^64-64*q)%2^64
  if bit=0 then findFirstZeroSpan bits p (left p)
  else if ffz bits offset (64-bit)<64-bit then ⟨8*p,8⟩
  else ⟨8*p,8+(findFirstZeroSpan bits (p+1) (left (p+1))).count⟩

def memscanReads (b : ℕ) : ℕ → ℕ
  | 0 => 0
  | n+1 => if zeroByte bits b then 1 else 1+memscanReads (b+1) n

def memscanSpan (b n : ℕ) : Span := ⟨b,memscanReads bits b n⟩

def toInt (x : ℕ) : ℕ := signExtend (x%2^32)

/-- What the scans of one group read, and the bit they settle on. -/
structure Scan where
  reads : List Span
  index : Option ℕ

def goalFirst (j : ℕ) : List Span :=
  if j=0 then [] else [findNextZeroSpan bits ((j+63)/64*64) j]

/-- The rest of the scans of the goal's group, when its word gives nothing. The size handed to
`memscan` is in `unsigned long`. -/
def goalRest (bpg : ℕ) (first : List Span) (near : ℕ) : Scan :=
  let size := (bpg+2^64-near+7)%2^64/8
  let second := first++[memscanSpan bits (near/8) size]
  let k := toInt (8*memscan bits (near/8) size)
  if k<bpg then ⟨second,some (searchBack bits 7 k)⟩
  else
    let k := toInt (findNextZeroBit bits bpg near)
    ⟨second++[findNextZeroSpan bits bpg near],if k<bpg then some k else none⟩

/-- For any number of blocks per group. -/
def goalScan (bpg : ℕ) (bits : ℕ → Bool) (j : ℕ) : Scan :=
  if !bits j then ⟨[],some j⟩
  else
    let endGoal := (j+63)/64*64
    let near := if j=0 then 0 else findNextZeroBit bits endGoal j
    if j≠0 ∧ near<endGoal then ⟨goalFirst bits j,some near⟩
    else goalRest bits bpg (goalFirst bits j) near

/-- A bit that `find_first_zero_bit` yields falls through to `search_back:` as well. -/
def groupScan (bpg : ℕ) (bits : ℕ → Bool) : Scan :=
  let j := toInt (8*memscan bits 0 (bpg/8))
  if j<bpg then ⟨[memscanSpan bits 0 (bpg/8)],some (searchBack bits 7 j)⟩
  else
    let j := toInt (findFirstZeroBit bits 0 bpg)
    ⟨[memscanSpan bits 0 (bpg/8),findFirstZeroSpan bits 0 bpg],
      if j<bpg then some (searchBack bits 7 j) else none⟩

/-- A volume whose groups fill no more than one bitmap block and whole bytes of it. -/
structure Volume where
  blocksize : ℕ
  bpg : ℕ
  firstDataBlock : ℕ
  blocksCount : ℕ
  groupsCount : ℕ
  size_ok : blocksize=1024 ∨ blocksize=2048 ∨ blocksize=4096
  bpg_pos : 0<bpg
  bpg_dvd : 8∣bpg
  bpg_le : bpg≤8*blocksize

/-- A mount with a usable geometry and groups of whole bytes is such a volume. -/
def Volume.ofMount {env : Mount.Env} {es : Mount.Superblock} {fs : Mount.Fs}
    (h : Mount.Usable env es fs) (hp : env.pageSize=4096) (hd : 8∣fs.bpg) : Volume where
  blocksize := fs.blocksize
  bpg := fs.bpg
  firstDataBlock := es.firstDataBlock.toNat
  blocksCount := es.blocksCount.toNat
  groupsCount := fs.groupsCount
  size_ok := by
    obtain ⟨k,hk⟩ := h.size
    have hle := h.page
    rw [hp,hk] at hle
    have hk2 : k<3 := by
      by_contra hn
      have h8 : 2^3≤2^k := Nat.pow_le_pow_right (by decide) (by omega)
      omega
    match k,hk2 with
    | 0,_ => exact .inl hk
    | 1,_ => exact .inr (.inl hk)
    | 2,_ => exact .inr (.inr hk)
  bpg_pos := h.blocks.1
  bpg_dvd := hd
  bpg_le := h.blocks.2

/-- The free counts of the descriptors, and memory from the start of each bitmap block on, past its
end too. -/
structure Groups where
  free : ℕ → ℕ
  bitmap : ℕ → ℕ → Bool

namespace Volume

variable (v : Volume)

def clamp (goal : ℕ) : ℕ :=
  if goal<v.firstDataBlock ∨ v.blocksCount≤goal then v.firstDataBlock else goal

def goalGroup (goal : ℕ) : ℕ := (v.clamp goal-v.firstDataBlock)/v.bpg

def goalBit (goal : ℕ) : ℕ := (v.clamp goal-v.firstDataBlock)%v.bpg

/-- One pass from `repeat:` on. Reading a bitmap sleeps, so the search through the other groups
finds its own state. -/
def scans (here others : Groups) (goal : ℕ) : List Scan :=
  let i := v.goalGroup goal
  let next := firstAfter v.groupsCount (fun i => decide (0<others.free i)) v.groupsCount i
  let rest := (next.map fun i => groupScan v.bpg (others.bitmap i)).toList
  if 0<here.free i then
    let s := goalScan v.bpg (here.bitmap i) (v.goalBit goal)
    if s.index.isSome then [s] else s::rest
  else rest

end Volume

/-- The scans read the bitmap block only and settle on a bit of the group. -/
def Scan.Inside (s : Scan) (v : Volume) : Prop :=
  (∀ r ∈ s.reads,r.Within v.blocksize) ∧ ∀ j,s.index=some j → j<v.bpg

theorem Span.within_of_le {s : Span} {n : ℕ} (h : s.count=0 ∨ s.first+s.count≤n) : s.Within n := by
  intro b hl hr
  omega

variable (bits : ℕ → Bool)

theorem findFirstZeroLoads_le (rest n p : ℕ) :
    findFirstZeroLoads bits rest n p≤n+if rest=0 then 0 else 1 := by
  induction n generalizing p with
  | zero => simp [findFirstZeroLoads]
  | succ n ih =>
    have h := ih (p+1)
    unfold findFirstZeroLoads
    split <;> omega

theorem findFirstZeroLoads_stop (rest n p q : ℕ) (hp : 64*p≤q) (hn : q<64*(p+n))
    (hq : bits q=false) :
    p+findFirstZeroLoads bits rest n p≤q/64+1 := by
  induction n generalizing p with
  | zero => omega
  | succ n ih =>
    unfold findFirstZeroLoads
    by_cases hw : ffz bits (64*p) 64<64
    · rw [if_pos hw]
      omega
    have hlater : 64*(p+1)≤q := by
      by_contra h
      exact hw (ffz_lt bits (64*p) 64 q hp (by omega) hq)
    have h := ih (p+1) hlater (by omega)
    rw [if_neg hw]
    omega

theorem memscanReads_le (b n : ℕ) : memscanReads bits b n≤n := by
  induction n generalizing b with
  | zero => simp [memscanReads]
  | succ n ih =>
    have h := ih (b+1)
    unfold memscanReads
    split <;> omega

theorem memscan_stop (b n q : ℕ) (hb : b≤q) (hn : q<b+n) (hq : zeroByte bits q=true) :
    memscan bits b n≤q ∧ b+memscanReads bits b n≤q+1 := by
  induction n generalizing b with
  | zero => omega
  | succ n ih =>
    unfold memscan memscanReads
    cases hz : zeroByte bits b with
    | true =>
      simp only [if_true]
      omega
    | false =>
      have hne : b≠q := by
        rintro rfl
        rw [hz] at hq
        cases hq
      obtain ⟨hm,hr⟩ := ih (b+1) (by omega) (by omega)
      simp only [Bool.false_eq_true,if_false]
      omega

theorem memscanReads_pass (b n e : ℕ) (hb : b≤e) (hn : e<b+n)
    (hz : ∀ q,b≤q → q<e → zeroByte bits q=false) : e<b+memscanReads bits b n := by
  induction n generalizing b with
  | zero => omega
  | succ n ih =>
    unfold memscanReads
    by_cases he : b=e
    · split <;> omega
    · have h := ih (b+1) (by omega) (by omega) (fun q hq => hz q (by omega))
      rw [hz b le_rfl (by omega)]
      simp only [Bool.false_eq_true,if_false]
      omega

theorem toInt_of_lt {x : ℕ} (h : x<2^31) : toInt x=x := by
  unfold toInt signExtend
  rw [Nat.mod_eq_of_lt (by omega),if_pos h]

theorem findNextZeroSpan_near (j n : ℕ) (hj : j<8*n) (hn : 8∣n) :
    (findNextZeroSpan bits ((j+63)/64*64) j).Within n := by
  have left (q : ℕ) (hq : 64*q=(j+63)/64*64) : ((j+63)/64*64+2^64-64*q)%2^64=0 := by
    rw [hq,Nat.add_sub_cancel_left,Nat.mod_self]
  have none (p : ℕ) : findFirstZeroSpan bits p 0=⟨8*p,0⟩ := rfl
  apply Span.within_of_le
  unfold findNextZeroSpan
  dsimp only
  by_cases hz : j%64=0
  · rw [if_pos hz,left (j/64) (by omega),none]
    exact .inl rfl
  · rw [if_neg hz,left (j/64+1) (by omega),none]
    split <;> dsimp only <;> omega

/-- `r` is the first clear bit from `lo` on and below `hi`, or not below `hi` and there is none. -/
structure FirstClear (bits : ℕ → Bool) (lo hi r : ℕ) : Prop where
  start : lo ≤ r
  clear : r<hi → bits r=false
  set : ∀ i,lo ≤ i → i < r → i<hi → bits i=true

def Span.InWords (s : Span) (size : ℕ) : Prop :=
  ∀ b,s.first≤b → b < s.first+s.count → 64*(b/8) < size

theorem findNextZeroBit_set (size offset i : ℕ) (ho : offset ≤ i)
    (h : i<findNextZeroBit bits size offset) : bits i=true := by
  have words (p left j : ℕ) (hj : j<findFirstZeroBit bits p left) : bits (64*p+j)=true :=
    findFirstZeroWords_set bits _ _ p j hj
  unfold findNextZeroBit at h
  dsimp only at h
  by_cases hz : offset%64=0
  · rw [if_pos hz] at h
    have hs := words (offset/64) _ (i-offset) (Nat.sub_lt_left_of_lt_add ho h)
    rwa [show 64*(offset/64)+(i-offset)=i by omega] at hs
  have first (j : ℕ) (hj : j<ffz bits offset (64-offset%64)) := ffz_set bits offset _ j hj
  by_cases hi : i-offset<ffz bits offset (64-offset%64)
  · have hs := first _ hi
    rwa [show offset+(i-offset)=i by omega] at hs
  · split_ifs at h with hw
    · omega
    · have hs := words (offset/64+1) _ (i-(offset+(64-offset%64)))
        (Nat.sub_lt_left_of_lt_add (by omega) h)
      rwa [show 64*(offset/64+1)+(i-(offset+(64-offset%64)))=i by omega] at hs

theorem findFirstZeroSpan_inWords (p left size : ℕ) (h : 64*p+left ≤ size) :
    (findFirstZeroSpan bits p left).InWords size := by
  have hle := findFirstZeroLoads_le bits (left%64) (left/64) p
  intro b hb hlt
  unfold findFirstZeroSpan at hb hlt
  dsimp only at hb hlt
  split_ifs at hle <;> omega

theorem findNextZeroSpan_inWords (size offset : ℕ) (hs : 64∣size)
    (hb : size<2^63) (ho : offset ≤ size) : (findNextZeroSpan bits size offset).InWords size := by
  obtain ⟨w,rfl⟩ := hs
  unfold findNextZeroSpan
  dsimp only
  by_cases hz : offset%64=0
  · rw [if_pos hz,left_eq hb (by omega)]
    exact findFirstZeroSpan_inWords bits _ _ _ (by omega)
  have hrest := findFirstZeroSpan_inWords bits (offset/64+1) (64*w-64*(offset/64+1)) (64*w)
    (by omega)
  rw [if_neg hz,left_eq hb (by omega)]
  intro b hge hlt
  by_cases hlow : b<8*(offset/64)+8
  · omega
  · apply hrest b (by change 8*(offset/64+1)≤b; omega)
    change b<8*(offset/64+1)+_
    split at hlt <;> dsimp only at hge hlt <;> omega

/-- The two searches for a zero bit, with the words that they load. -/
theorem zeroBit_searches (bits : ℕ → Bool) :
    (∀ size offset,64∣size → size<2^63 → offset ≤ size →
      FirstClear bits offset size (findNextZeroBit bits size offset) ∧
      (findNextZeroSpan bits size offset).InWords size) ∧
    ∀ size,FirstClear bits 0 size (findFirstZeroBit bits 0 size) ∧
      (findFirstZeroSpan bits 0 size).InWords size := by
  constructor
  · intro size offset hs hb ho
    refine ⟨⟨findNextZeroBit_ge bits size offset,?_,?_⟩,
      findNextZeroSpan_inWords bits size offset hs hb ho⟩
    · exact findNextZeroBit_clear bits size offset hs hb ho
    · exact fun i hi h _ => findNextZeroBit_set bits size offset i hi h
  · intro size
    refine ⟨⟨Nat.zero_le _,fun h => ?_,fun i _ h _ => ?_⟩,
      findFirstZeroSpan_inWords bits 0 size size (by omega)⟩
    · have hc := findFirstZeroBit_clear bits 0 size h
      rwa [Nat.mul_zero,Nat.zero_add] at hc
    · have hs := findFirstZeroWords_set bits _ _ 0 i h
      rwa [Nat.mul_zero,Nat.zero_add] at hs

theorem zeroBit_second : FirstClear (fun i => i≠64) 3 128 64 ∧
    (findNextZeroSpan (fun i => i≠64) 128 3).InWords 128 := by
  have h := (zeroBit_searches (fun i => i≠64)).1 128 3 (by decide) (by decide) (by decide)
  rwa [show findNextZeroBit (fun i => i≠64) 128 3=64 by decide +kernel] at h

section GoalScan

variable (bits : ℕ → Bool) (bpg j : ℕ)

theorem goalScan_near (hj : bits j=true) (q : ℕ) (hq : q<(j+63)/64*64)
    (hn : j+ffz bits j ((j+63)/64*64-j)=q) :
    goalScan bpg bits j=⟨goalFirst bits j,some q⟩ := by
  have h0 : j≠0 := by omega
  unfold goalScan
  simp only [hj,Bool.not_true,Bool.false_eq_true,if_false,if_neg h0,findNextZeroBit_near,hn]
  rw [if_pos ⟨h0,hq⟩]

theorem near_of_set (hn : ∀ q,j≤q → q<(j+63)/64*64 → bits q=true) :
    (if j=0 then 0 else findNextZeroBit bits ((j+63)/64*64) j)=(j+63)/64*64 := by
  have hle := ffz_le bits j ((j+63)/64*64-j)
  have hf : j+ffz bits j ((j+63)/64*64-j)=(j+63)/64*64 := by
    by_contra hne
    have hc := ffz_clear bits j ((j+63)/64*64-j) (by omega)
    rw [hn _ (by omega) (by omega)] at hc
    cases hc
  split
  · next h => rw [h]
  · rw [findNextZeroBit_near,hf]

theorem goalScan_rest (hj : bits j=true) (hn : ∀ q,j≤q → q<(j+63)/64*64 → bits q=true) :
    goalScan bpg bits j=goalRest bits bpg (goalFirst bits j) ((j+63)/64*64) := by
  unfold goalScan
  simp only [hj,Bool.not_true,Bool.false_eq_true,if_false,near_of_set bits j hn,lt_irrefl,and_false]

theorem goalFirst_within {n : ℕ} (hj : j<8*n) (hn : 8∣n) : ∀ r ∈ goalFirst bits j,r.Within n := by
  intro r hr
  unfold goalFirst at hr
  split at hr
  · cases hr
  · rw [List.mem_singleton.mp hr]
    exact findNextZeroSpan_near bits j n hj hn

end GoalScan

variable (v : Volume)

theorem Volume.blocksize_dvd : 8∣v.blocksize := by
  rcases v.size_ok with h | h | h <;> rw [h] <;> decide

theorem Volume.blocksize_le : v.blocksize≤4096 := by
  have h := v.size_ok
  omega

theorem Volume.goalRest_inside (bits : ℕ → Bool) (first : List Span) (w : ℕ)
    (hf : ∀ r ∈ first,r.Within v.blocksize) (hw : 64*w≤v.bpg) :
    (goalRest bits v.bpg first (64*w)).Inside v := by
  have hle := v.blocksize_le
  have hbpg := v.bpg_le
  obtain ⟨c,hc⟩ := v.bpg_dvd
  obtain ⟨d,hd⟩ := v.blocksize_dvd
  have hsize : (v.bpg+2^64-64*w+7)%2^64/8=c-8*w := by
    omega
  have hleft : (v.bpg+2^64-64*w)%2^64=v.bpg-64*w := left_eq (by omega) hw
  have hscan : (memscanSpan bits (64*w/8) (c-8*w)).Within v.blocksize := by
    have h := memscanReads_le bits (64*w/8) (c-8*w)
    apply Span.within_of_le
    simp only [memscanSpan]
    omega
  have hnext : (findNextZeroSpan bits v.bpg (64*w)).Within v.blocksize := by
    have h := findFirstZeroLoads_le bits ((v.bpg-64*w)%64) ((v.bpg-64*w)/64) w
    apply Span.within_of_le
    simp only [findNextZeroSpan,Nat.mul_mod_right,if_true,
      Nat.mul_div_cancel_left w (by decide : 0<64),hleft,findFirstZeroSpan]
    split at h <;> omega
  unfold goalRest
  simp only [hsize]
  split
  · next hk =>
    constructor
    · simp only [List.forall_mem_append,List.forall_mem_singleton]
      exact ⟨hf,hscan⟩
    · rintro _ ⟨rfl⟩
      exact lt_of_le_of_lt (searchBack_le bits 7 _) hk
  · constructor
    · simp only [List.forall_mem_append,List.forall_mem_singleton]
      exact ⟨⟨hf,hscan⟩,hnext⟩
    intro k hk
    split at hk
    · next hlt =>
      cases hk
      exact hlt
    · cases hk

theorem Volume.goalRest_past (bits : ℕ → Bool) (first : List Span) (w : ℕ)
    (hf : ∀ r ∈ first,r.Within v.blocksize) (hw : v.bpg<64*w) (hb : 8*w≤v.blocksize) :
    (goalRest bits v.bpg first (64*w)).Inside v ↔
      ∃ b,8*w≤b ∧ b<v.blocksize ∧ zeroByte bits b=true := by
  have hle := v.blocksize_le
  obtain ⟨c,hc⟩ := v.bpg_dvd
  obtain ⟨d,hd⟩ := v.blocksize_dvd
  have hsize : (v.bpg+2^64-64*w+7)%2^64/8=2^61+c-8*w := by
    omega
  have hleft : (v.bpg+2^64-64*w)%2^64=v.bpg+2^64-64*w := Nat.mod_eq_of_lt (by omega)
  have hfirst : 64*w/8=8*w := by omega
  constructor
  · rintro ⟨hreads,-⟩
    by_contra hno
    have hz (q : ℕ) (h1 : 8*w≤q) (h2 : q<v.blocksize) : zeroByte bits q=false := by
      cases h : zeroByte bits q with
      | false => rfl
      | true => exact absurd ⟨q,h1,h2,h⟩ hno
    have hpass := memscanReads_pass bits (8*w) (2^61+c-8*w) v.blocksize hb (by omega) hz
    have hmem : memscanSpan bits (8*w) (2^61+c-8*w) ∈ (goalRest bits v.bpg first (64*w)).reads := by
      unfold goalRest
      simp only [hsize,hfirst]
      split <;> simp
    exact lt_irrefl _ (hreads _ hmem v.blocksize hb hpass)
  rintro ⟨b,h1,h2,hz⟩
  have hclear := zeroByte_clear bits b 0 hz (by decide)
  obtain ⟨hm,hr⟩ := memscan_stop bits (8*w) (2^61+c-8*w) b h1 (by omega) hz
  have hge := memscan_ge bits (8*w) (2^61+c-8*w)
  have hloads := findFirstZeroLoads_stop bits ((v.bpg+2^64-64*w)%64)
    ((v.bpg+2^64-64*w)/64) w (8*b+0) (by omega) (by omega) hclear
  have hfound := findFirstZeroWords_stop bits ((v.bpg+2^64-64*w)%64)
    ((v.bpg+2^64-64*w)/64) w (8*b+0) (by omega) (by omega) hclear
  have hnext : findNextZeroBit bits v.bpg (64*w)=64*w+findFirstZeroWords bits
      ((v.bpg+2^64-64*w)%64) ((v.bpg+2^64-64*w)/64) w := by
    simp only [findNextZeroBit,Nat.mul_mod_right,if_true,
      Nat.mul_div_cancel_left w (by decide : 0<64),hleft,findFirstZeroBit]
  have hspan : findNextZeroSpan bits v.bpg (64*w)=⟨8*w,8*findFirstZeroLoads bits
      ((v.bpg+2^64-64*w)%64) ((v.bpg+2^64-64*w)/64) w⟩ := by
    simp only [findNextZeroSpan,Nat.mul_mod_right,if_true,
      Nat.mul_div_cancel_left w (by decide : 0<64),hleft,findFirstZeroSpan]
  unfold goalRest
  simp only [hsize,hfirst,hnext,hspan]
  rw [toInt_of_lt (by omega),toInt_of_lt (by omega),if_neg (by omega),if_neg (by omega)]
  constructor
  · simp only [List.forall_mem_append,List.forall_mem_singleton]
    refine ⟨⟨hf,?_⟩,?_⟩
    · apply Span.within_of_le
      simp only [memscanSpan]
      omega
    · apply Span.within_of_le
      dsimp only
      omega
  · intro k hk
    cases hk

theorem Volume.groupScan_inside (bits : ℕ → Bool) : (groupScan v.bpg bits).Inside v := by
  have hbpg := v.bpg_le
  obtain ⟨d,hd⟩ := v.blocksize_dvd
  have hscan : (memscanSpan bits 0 (v.bpg/8)).Within v.blocksize := by
    have h := memscanReads_le bits 0 (v.bpg/8)
    apply Span.within_of_le
    simp only [memscanSpan]
    omega
  have hfind : (findFirstZeroSpan bits 0 v.bpg).Within v.blocksize := by
    have h := findFirstZeroLoads_le bits (v.bpg%64) (v.bpg/64) 0
    apply Span.within_of_le
    simp only [findFirstZeroSpan]
    split at h <;> omega
  unfold groupScan
  dsimp only
  split
  · next hk =>
    constructor
    · simp only [List.forall_mem_singleton]
      exact hscan
    · rintro _ ⟨rfl⟩
      exact lt_of_le_of_lt (searchBack_le bits 7 _) hk
  · constructor
    · simp only [List.forall_mem_cons]
      exact ⟨hscan,hfind,by simp⟩
    intro k hk
    split at hk
    · next hlt =>
      cases hk
      exact lt_of_le_of_lt (searchBack_le bits 7 _) hlt
    · cases hk

/-- The goal's bitmap word ends inside the group, or the group has a free block from the goal on, or
the bits from the goal to the end of its word are set and a zero byte lies in the padding after it.
-/
def Volume.Covered (v : Volume) (bits : ℕ → Bool) (j : ℕ) : Prop :=
  (j+63)/64*64≤v.bpg ∨ (∃ q,j≤q ∧ q<v.bpg ∧ bits q=false) ∨
    ((∀ q,j≤q → q<(j+63)/64*64 → bits q=true) ∧
      ∃ b,(j+63)/64*8≤b ∧ b<v.blocksize ∧ zeroByte bits b=true)

theorem Volume.goalScan_inside_iff (bits : ℕ → Bool) (j : ℕ) (hj : j<v.bpg) :
    (goalScan v.bpg bits j).Inside v ↔ v.Covered bits j := by
  have hbpg := v.bpg_le
  obtain ⟨d,hd⟩ := v.blocksize_dvd
  have hfirst := goalFirst_within bits j (show j<8*v.blocksize by omega) v.blocksize_dvd
  have hword : (j+63)/64*64=64*((j+63)/64) := Nat.mul_comm _ _
  cases hbit : bits j with
  | false =>
    have hgoal : goalScan v.bpg bits j=⟨[],some j⟩ := by simp [goalScan,hbit]
    rw [hgoal]
    constructor
    · intro _
      exact .inr (.inl ⟨j,le_rfl,hj,hbit⟩)
    · intro _
      constructor
      · simp
      · rintro _ ⟨rfl⟩
        exact hj
  | true =>
    by_cases hset : ∀ q,j≤q → q<(j+63)/64*64 → bits q=true
    · -- no bit of the goal's word is left
      rw [goalScan_rest bits v.bpg j hbit hset,hword]
      by_cases hin : 64*((j+63)/64)≤v.bpg
      · have h := v.goalRest_inside bits (goalFirst bits j) ((j+63)/64) hfirst hin
        exact ⟨fun _ => .inl (by omega),fun _ => h⟩
      rw [v.goalRest_past bits (goalFirst bits j) ((j+63)/64) hfirst (by omega) (by omega)]
      constructor
      · rintro ⟨b,h1,h2,h3⟩
        exact .inr (.inr ⟨hset,b,by omega,h2,h3⟩)
      · rintro (h | ⟨q,h1,h2,h3⟩ | ⟨-,b,h1,h2,h3⟩)
        · omega
        · rw [hset q h1 (by omega)] at h3
          cases h3
        · exact ⟨b,by omega,h2,h3⟩
    · -- the first clear bit of the word is taken, whatever the size of the group
      push Not at hset
      obtain ⟨q,h1,h2,h3⟩ := hset
      have hq : bits q=false := by simpa using h3
      have hlt := ffz_lt bits j ((j+63)/64*64-j) q h1 (by omega) hq
      have hclear := ffz_clear bits j _ hlt
      rw [goalScan_near bits v.bpg j hbit _ (by omega) rfl]
      constructor
      · rintro ⟨-,hi⟩
        exact .inr (.inl ⟨_,Nat.le_add_right j _,hi _ rfl,hclear⟩)
      intro hcov
      refine ⟨hfirst,?_⟩
      rintro _ ⟨rfl⟩
      rcases hcov with h | ⟨p,hp1,hp2,hp3⟩ | ⟨hall,-⟩
      · omega
      · have h := ffz_le_clear bits j ((j+63)/64*64-j) p hp1 hp3
        omega
      · rw [hall q h1 h2] at hq
        cases hq

theorem searchBack_first (bits : ℕ → Bool) (k j : ℕ) (h : ∀ i<j,bits i=true) :
    searchBack bits k j=j := by
  cases k with
  | zero => rfl
  | succ k =>
    cases j with
    | zero => rfl
    | succ j =>
      unfold searchBack
      rw [h j (Nat.lt_succ_self j)]
      rfl

theorem groupScan_index (bpg : ℕ) (bits : ℕ → Bool) (hd : 8∣bpg) (hb : bpg<2^16) :
    (groupScan bpg bits).index=scanSearch bpg bits := by
  have hm := memscan_le bits 0 (bpg/8)
  have hf := findFirstZeroBit_le bits 0 bpg
  have hback : searchBack bits 7 (findFirstZeroBit bits 0 bpg)=findFirstZeroBit bits 0 bpg := by
    apply searchBack_first
    intro i hi
    have h := findFirstZeroWords_set bits (bpg%64) (bpg/64) 0 i hi
    rw [Nat.mul_zero,Nat.zero_add] at h
    exact h
  unfold groupScan scanSearch
  dsimp only
  rw [toInt_of_lt (by omega),toInt_of_lt (by omega),Nat.mul_comm 8,hback]
  split <;> rfl

theorem goalScan_index (bpg : ℕ) (bits : ℕ → Bool) (j : ℕ) (hd : 64∣bpg) (hb : bpg<2^16)
    (hj : j<bpg) : (goalScan bpg bits j).index=goalSearch bpg bits j := by
  obtain ⟨c,rfl⟩ := hd
  cases hbit : bits j with
  | false => simp [goalScan,goalSearch,hbit]
  | true =>
    by_cases hset : ∀ q,j≤q → q<(j+63)/64*64 → bits q=true
    · have hw : (j+63)/64*64=64*((j+63)/64) := Nat.mul_comm _ _
      have hm := memscan_le bits (64*((j+63)/64)/8) ((64*c-64*((j+63)/64)+7)/8)
      have hn := findNextZeroBit_le bits (64*c) ((j+63)/64) (by omega) (by omega)
      have hsize : (64*c+2^64-64*((j+63)/64)+7)%2^64/8=(64*c-64*((j+63)/64)+7)/8 := by
        rw [show 64*c+2^64-64*((j+63)/64)+7=2^64+(64*c-64*((j+63)/64)+7) by omega,
          Nat.add_mod_left,Nat.mod_eq_of_lt (by omega)]
      rw [goalScan_rest bits _ j hbit hset]
      unfold goalSearch goalRest
      simp only [hbit,Bool.not_true,Bool.false_eq_true,if_false,near_of_set bits j hset,
        lt_irrefl,and_false]
      simp only [hw,hsize]
      rw [toInt_of_lt (by omega),toInt_of_lt (by omega),Nat.mul_comm 8]
      split <;> rfl
    · push Not at hset
      obtain ⟨q,h1,h2,h3⟩ := hset
      have h0 : j≠0 := by omega
      have hlt := ffz_lt bits j ((j+63)/64*64-j) q h1 (by omega) (by simpa using h3)
      rw [goalScan_near bits _ j hbit _ (by omega) rfl]
      unfold goalSearch
      simp only [hbit,Bool.not_true,Bool.false_eq_true,if_false,if_neg h0,findNextZeroBit_near]
      rw [if_pos ⟨h0,by omega⟩]

theorem Volume.goalBit_lt (goal : ℕ) : v.goalBit goal<v.bpg := Nat.mod_lt _ v.bpg_pos

/-- A pass reads the bitmap blocks only and settles on a block of its group exactly when the goal's
group is passed over or covered. -/
theorem scans_inside_iff (v : Volume) (here others : Groups) (goal : ℕ) :
    (∀ s ∈ v.scans here others goal,s.Inside v) ↔
      here.free (v.goalGroup goal)=0 ∨
        v.Covered (here.bitmap (v.goalGroup goal)) (v.goalBit goal) := by
  have hrest (o : Option ℕ) :
      ∀ s ∈ (o.map fun i => groupScan v.bpg (others.bitmap i)).toList,s.Inside v := by
    intro s hs
    obtain ⟨i,-,rfl⟩ := Option.map_eq_some_iff.mp (Option.mem_toList.mp hs)
    exact v.groupScan_inside _
  have hgoal := v.goalScan_inside_iff (here.bitmap (v.goalGroup goal)) _ (v.goalBit_lt goal)
  unfold Volume.scans
  dsimp only
  by_cases hfree : here.free (v.goalGroup goal)=0
  · rw [if_neg (by omega)]
    exact ⟨fun _ => .inl hfree,fun _ => hrest _⟩
  · rw [if_pos (by omega),or_iff_right hfree,←hgoal]
    split
    · exact List.forall_mem_singleton
    · rw [List.forall_mem_cons]
      exact and_iff_left (hrest _)

def narrow : Volume where
  blocksize := 1024
  bpg := 72
  firstDataBlock := 1
  blocksCount := 145
  groupsCount := 2
  size_ok := .inl rfl
  bpg_pos := by decide
  bpg_dvd := by decide
  bpg_le := by decide

def narrowGroups : Groups where
  free := fun _ => 1
  bitmap := fun _ q => decide (q≠0)

/-- A goal in the last byte of a group makes `memscan` run out of the block. -/
theorem scans_escape :
    clearBits (narrowGroups.bitmap 0) narrow.bpg=narrowGroups.free 0 ∧
      ¬∀ s ∈ narrow.scans narrowGroups narrowGroups 66,s.Inside narrow := by
  refine ⟨by decide,?_⟩
  intro h
  have hset (q : ℕ) (hq : 65≤q) : narrowGroups.bitmap 0 q=true := decide_eq_true (by omega)
  have hscan : (goalScan 72 (narrowGroups.bitmap 0) 65).Inside narrow := by
    apply h
    unfold Volume.scans
    dsimp only
    rw [if_pos (by decide)]
    split <;> exact List.mem_cons_self
  rcases (narrow.goalScan_inside_iff _ 65 (by decide)).mp hscan with
    h | ⟨q,h1,-,h3⟩ | ⟨-,b,h1,-,h3⟩
  · exact absurd h (by decide)
  · rw [hset q h1] at h3
    cases h3
  · have hb := zeroByte_clear _ b 0 h3 (by decide)
    rw [hset _ (by omega)] at hb
    cases hb

/-- A bit of the padding that is clear is taken for a block. -/
example : (goalScan 72 (fun q => decide (q≠72)) 65).index=some 72 := by decide

end Ext2fsX.Balloc
