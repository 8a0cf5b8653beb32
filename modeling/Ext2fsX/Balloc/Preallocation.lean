import Ext2fsX.Balloc.Zones

namespace Ext2fsX.Preallocation

open Framework Balloc

/-- The filesystem and the inode: `rBlocks` is `s_r_blocks_count`, `regular` is `S_ISREG`. -/
structure Setup where
  g : Geometry
  blocksize : ℕ
  rBlocks : ℕ
  regular : Bool

/-- `pending` are the blocks that `ext2_new_block` marked used for this inode and that were neither
handed out nor given back. -/
structure State where
  fs : Alloc
  block : ℕ
  count : ℕ
  pending : ℕ → Bool

/-- `icount` and `ibn` are what the two variables on the stack hold. The last two calls are those of
other inodes. -/
inductive Call where
  | alloc (bpref : UInt32) (size uid : ℕ) (icount ibn : UInt32)
  | discard
  | newBlock (goal : ℕ) (pre : Bool)
  | freeBlocks (block count : UInt64)

structure InUse (g : Geometry) (a : Alloc) (b : ℕ) : Prop where
  valid : g.Valid b
  nonzero : b≠0
  used : a.bitmap (g.groupOf b) (g.bitOf b)=true
  data : ∀ i<g.groupsCount,¬g.System i b

deriving instance Decidable for Disk.System

instance (g : Geometry) (a : Alloc) (b : ℕ) : Decidable (InUse g a b) :=
  decidable_of_iff ((g.firstDataBlock≤b ∧ b<g.blocksCount) ∧ b≠0 ∧
      a.bitmap (g.groupOf b) (g.bitOf b)=true ∧ ∀ i<g.groupsCount,¬g.System i b)
    ⟨fun h => ⟨h.1,h.2.1,h.2.2.1,h.2.2.2⟩,fun h => ⟨h.valid,h.nonzero,h.used,h.data⟩⟩

namespace State

def inWindow (s : State) (b : ℕ) : Prop := s.block≤b ∧ b < s.block+s.count

deriving instance Decidable for State.inWindow

/-- `ext2_discard_prealloc`; `none` is a panic. -/
def discard (g : Geometry) (s : State) : Option State :=
  if s.count=0 then some s
  else
    match freeBlocks g s.fs s.block s.count with
    | some a => some { s with
        fs := a
        count := 0
        pending := fun b => s.pending b && !decide (s.inWindow b) }
    | none => none

/-- The end of `ext2_alloc`, where `bno` is an `int`: the block is handed out if it is positive. -/
def handOut (s : State) (bno : ℕ) : State :=
  if 0<bno ∧ bno<2^31 then { s with pending := fun b => s.pending b && !decide (b=bno) } else s

/-- A preallocation miss, with the old window given back. -/
def miss (v : Setup) (s : State) (bpref : ℕ) (icount ibn : UInt32) : Option State :=
  match Balloc.newBlock v.g s.fs (signExtend bpref) v.regular 1 with
  | .block a b n =>
    let s := { s with fs := a, pending := fun c => s.pending c || decide (b ≤ c ∧ c≤b+n) }
    some ((if v.regular then { s with count := n, block := (b+1)%2^32 } else s).handOut b)
  | .zero a =>
    let s := { s with fs := a }
    some (if v.regular then { s with count := icount.toNat, block := ibn.toNat } else s)
  | _ => none

def alloc (v : Setup) (s : State) (bpref : UInt32) (size uid : ℕ) (icount ibn : UInt32) :
    Option State :=
  if size=v.blocksize ∧ s.fs.sFree=0 then some s
  else if uid≠0 ∧ s.fs.sFree<v.rBlocks then some s
  else
    let bpref := if v.g.blocksCount≤bpref.toNat then 0 else bpref.toNat
    if s.count≠0 ∧ (bpref=s.block ∨ (bpref+1)%2^32=s.block) then
      some ({ s with block := (s.block+1)%2^32, count := s.count-1 }.handOut s.block)
    else
      match s.discard v.g with
      | some s => s.miss v bpref icount ibn
      | none => none

/-- Others free data blocks that are marked used and not pending here. -/
def next (v : Setup) (x : Call) (s : State) : Option State :=
  match x with
  | .alloc bpref size uid icount ibn => s.alloc v bpref size uid icount ibn
  | .discard => s.discard v.g
  | .newBlock goal pre =>
    match Balloc.newBlock v.g s.fs goal pre 1 with
    | .block a _ _ => some { s with fs := a }
    | .zero a => some { s with fs := a }
    | _ => none
  | .freeBlocks block count =>
    if ∀ k < count.toNat,s.pending (block.toNat+k)=false ∧ InUse v.g s.fs (block.toNat+k) then
      match freeBlocks v.g s.fs block.toNat count.toNat with
      | some a => some { s with fs := a }
      | none => none
    else none

end State

variable (v : Setup)

def preallocMachine : Machine State Call where
  init s := Sane v.g s.fs ∧ s.count=0 ∧ ∀ b,s.pending b=false
  next := State.next v

variable {g : Geometry} {a a' : Alloc}

theorem freeBlocks_some {block count : ℕ} (hw : block+count<2^64)
    (h : freeBlocks g a block count=some a') :
    (block<g.firstDataBlock ∨ g.blocksCount<block+count) ∧ a'=a ∨
      g.InGroup (g.groupOf block) block count ∧
        freeBlocksFinish g a (g.groupOf block) (g.bitOf block) block count=some a' := by
  have hcount := g.count_lt
  have hbit := g.bitOf_lt block
  have hbpg := g.bpg_lt
  unfold freeBlocks freeBlocksRange at h
  rw [Nat.mod_eq_of_lt hw] at h
  by_cases hout : block<g.firstDataBlock ∨ g.blocksCount<block+count
  · rw [if_pos hout] at h
    cases h
    exact .inl ⟨hout,rfl⟩
  rw [if_neg hout,Nat.mod_eq_of_lt (by omega)] at h
  by_cases hcross : g.blocksPerGroup<g.bitOf block+count
  · rw [if_pos hcross] at h
    cases h
  have hgroup : g.groupOf block<2^32 := by
    exact (Nat.div_le_self _ _).trans_lt (by omega)
  rw [if_neg hcross,Nat.mod_eq_of_lt hgroup] at h
  dsimp only at h
  split at h
  · rename_i hi
    exact .inr ⟨⟨by omega,by omega,⟨rfl,hi⟩,by omega⟩,h⟩
  · cases h

theorem sane_freed (h : Sane g a) {block count : ℕ} (hw : block+count<2^64)
    (huse : ∀ k < count,InUse g a (block+k)) (hf : freeBlocks g a block count=some a') :
    Sane g a' ∧ ∀ b,g.firstDataBlock≤b → a'.bitmap (g.groupOf b) (g.bitOf b)=
      (a.bitmap (g.groupOf b) (g.bitOf b) && !decide (block≤b ∧ b<block+count)) := by
  rcases freeBlocks_some hw hf with ⟨hout,rfl⟩ | ⟨hin,hfin⟩
  · -- a range outside the data zone is the empty one
    have hc : count=0 := by
      by_contra hne
      have h1 := (huse 0 (by omega)).valid
      have h2 := (huse (count-1) (by omega)).valid
      unfold Disk.Valid at h1 h2
      omega
    refine ⟨h,fun b _ => ?_⟩
    have hno : ¬(block≤b ∧ b<block+count) := by omega
    simp [hno]
  have hat := g.blockAt_of block hin.first
  have hfreed := freeBlocksFinish_freed g a a' _ _ block count h.accounted h.tail hin.group.2
    hin.bits (by
      intro q h1 h2
      have hq := (huse (q-g.bitOf block) (by omega)).used
      have hb := hin.bits
      obtain ⟨ho,ho'⟩ := @g.of_add block hin.first (q-g.bitOf block) (by omega)
      rwa [ho,ho',Nat.add_sub_cancel' h1] at hq) (by have := hin.last; omega) hfin
  have hbits (b : ℕ) (hb : g.firstDataBlock≤b) : a'.bitmap (g.groupOf b) (g.bitOf b)=
      (a.bitmap (g.groupOf b) (g.bitOf b) && !decide (block≤b ∧ b<block+count)) := by
    rw [hfreed.bits]
    congr 2
    rw [decide_eq_decide]
    constructor
    · rintro ⟨hg,h12⟩
      exact (g.bits_iff hin.first hb hg count).mp h12
    intro h12
    have hb2 := hin.bits
    have hg := (@g.of_add block hin.first (b-block) (by omega)).1
    rw [Nat.add_sub_cancel' h12.1] at hg
    exact ⟨hg,(g.bits_iff hin.first hb hg count).mpr h12⟩
  refine ⟨⟨hfreed.accounted,hfreed.tail h.tail (by rw [hat]; exact hin.last),?_,?_,h.tables,
    h.table_pos⟩,hbits⟩
  · intro i b hi hs hv
    rw [hbits b hv.1,h.system i b hi hs hv]
    have hno : ¬(block≤b ∧ b<block+count) := by
      rintro ⟨h1,h2⟩
      have hd := (huse (b-block) (by omega)).data i hi
      rw [Nat.add_sub_cancel' h1] at hd
      exact hd hs
    simp [hno]
  · intro h0
    have hb := hbits 0 (by omega)
    have hg : g.groupOf 0=0 ∧ g.bitOf 0=0 := by
      unfold Disk.groupOf Disk.bitOf
      simp
    rw [hg.1,hg.2,h.superblock h0] at hb
    rw [hb]
    have hno : ¬(block≤0 ∧ 0<block+count) := by
      rintro ⟨h1,h2⟩
      exact (huse 0 (by omega)).nonzero (by omega)
    rw [decide_eq_false hno]
    rfl

theorem sane_reserved (h : Sane g a) {b n : ℕ} (hr : Reserved g a a' b n) : Sane g a' := by
  have keep (i j : ℕ) (hs : a.bitmap i j=true) : a'.bitmap i j=true := by
    rw [hr.bits,hs]
    rfl
  exact ⟨hr.accounted,fun i j h1 h2 h3 => keep i j (h.tail i j h1 h2 h3),
    fun i c h1 h2 h3 => keep _ _ (h.system i c h1 h2 h3),fun h0 => keep _ _ (h.superblock h0),
    h.tables,h.table_pos⟩

theorem inUse_reserved (h : Sane g a) {b n : ℕ} (hb : b≠0) (hr : Reserved g a a' b n) (k : ℕ)
    (hk : k≤n) : InUse g a' (b+k) := by
  obtain ⟨⟨hv,hc⟩,hg⟩ := hr.free k hk
  refine ⟨hv,by omega,?_,?_⟩
  · rw [hr.bits]
    obtain ⟨h1,h2⟩ := (g.bits_iff hr.valid.1 hv.1 hg (n+1)).mpr ⟨by omega,by omega⟩
    have h2 : g.bitOf (b+k)≤g.bitOf b+n := Nat.le_of_lt_succ h2
    simp [hg,h1,h2]
  · intro i hi hs
    have hset := h.system i (b+k) hi hs hv
    rw [hc] at hset
    cases hset

theorem inUse_keep {b : ℕ} (h : InUse g a b) (hk : a'.bitmap (g.groupOf b) (g.bitOf b)=true) : InUse g a' b :=
  ⟨h.valid,h.nonzero,hk,h.data⟩

theorem newBlock_cases {a : Alloc} (h : Sane g a) (goal : ℕ) (pre : Bool) :
    (∃ a' b n,newBlock g a goal pre 1=.block a' b n ∧ b≠0 ∧ Reserved g a a' b n ∧
      (pre=false → n=0)) ∨
    (¬∃ b,g.Free a b) ∧ newBlock g a goal pre 1=.zero a := by
  rw [h.free_iff]
  unfold newBlock
  rcases h.attempt goal pre with ⟨-,a',b,n,he,hb,hr,hn⟩ | ⟨hnone,he⟩
  · rw [he]
    exact .inl ⟨a',b,n,rfl,hb,hr,hn⟩
  · rw [he]
    refine .inr ⟨?_,rfl⟩
    rintro ⟨i,hi,hpos⟩
    rw [hnone i hi] at hpos
    cases hpos

structure Held (s : State) : Prop where
  sane : Sane v.g s.fs
  pending : ∀ b,s.pending b=decide (s.inWindow b)
  inUse : ∀ b,s.inWindow b → InUse v.g s.fs b

/-- Block numbers are positive as an `int`; with no block free and no window, a block for a regular
file is asked for as a whole block. -/
def Supplied (s : State) : Call → Prop
  | .alloc _ size _ _ _ => v.g.blocksCount≤2^31 ∧
      (v.regular=true → s.fs.sFree=0 → s.count=0 → size=v.blocksize)
  | _ => True

namespace Held

variable {v : Setup} {s s' : State}

section

variable (h : Held v s)

include h

theorem window_lt (hc : s.count≠0) : s.block+s.count≤v.g.blocksCount := by
  have hv := (h.inUse (s.block+s.count-1) ⟨by omega,by omega⟩).valid.2
  omega

theorem discard (hd : s.discard v.g=some s') :
    Held v s' ∧ s'.count=0 ∧ (s.count≠0 → ∃ b,v.g.Free s'.fs b) ∧ (s.count=0 → s'=s) := by
  unfold State.discard at hd
  by_cases hc : s.count=0
  · rw [if_pos hc] at hd
    cases hd
    exact ⟨h,hc,fun hne => absurd hc hne,fun _ => rfl⟩
  rw [if_neg hc] at hd
  have hlt := h.window_lt hc
  have hcount := v.g.count_lt
  cases hf : freeBlocks v.g s.fs s.block s.count with
  | none =>
    rw [hf] at hd
    cases hd
  | some a =>
    rw [hf] at hd
    cases hd
    obtain ⟨hsane,hbits⟩ := sane_freed h.sane (by omega)
      (fun k hk => h.inUse (s.block+k) ⟨by omega,by omega⟩) hf
    refine ⟨⟨hsane,fun b => ?_,fun b hb => ?_⟩,rfl,fun _ => ⟨s.block,?_,?_⟩,fun h0 => absurd h0 hc⟩
    · refine Eq.trans ?_ (decide_eq_false ?_).symm
      · dsimp only
        rw [h.pending b]
        simp
      · unfold State.inWindow
        dsimp only
        omega
    · unfold State.inWindow at hb
      dsimp only at hb
      omega
    · exact (h.inUse s.block ⟨by omega,by omega⟩).valid
    · have hv := (h.inUse s.block ⟨by omega,by omega⟩).valid
      rw [hbits s.block hv.1,decide_eq_true (by omega : s.block ≤ s.block ∧ s.block < s.block+s.count)]
      simp

theorem hit (hmax : v.g.blocksCount≤2^31) (hc : s.count≠0) :
    Held v ({ s with block := (s.block+1)%2^32, count := s.count-1 }.handOut s.block) := by
  have hlt := h.window_lt hc
  have hpos := (h.inUse s.block ⟨by omega,by omega⟩).nonzero
  unfold State.handOut
  rw [if_pos ⟨by omega,by omega⟩,Nat.mod_eq_of_lt (by omega)]
  refine ⟨h.sane,fun b => ?_,fun b hb => h.inUse b ?_⟩
  · dsimp only [State.inWindow]
    rw [h.pending b,← decide_not,← Bool.decide_and]
    apply decide_eq_decide.mpr
    unfold State.inWindow
    omega
  · unfold State.inWindow at hb ⊢
    dsimp only at hb
    omega

theorem miss (hmax : v.g.blocksCount≤2^31) (hc : s.count=0)
    (hfree : v.regular=true → ∃ b,v.g.Free s.fs b) (bpref : ℕ) (icount ibn : UInt32)
    (hm : s.miss v bpref icount ibn=some s') : Held v s' := by
  have hnone (c : ℕ) : s.pending c=false := by
    rw [h.pending c]
    apply decide_eq_false
    unfold State.inWindow
    omega
  unfold State.miss at hm
  rcases newBlock_cases h.sane (signExtend bpref) v.regular with
    ⟨a,b,n,he,hb,hr,hn⟩ | ⟨hno,he⟩
  · have hlt := hr.valid.2
    rw [he] at hm
    cases hm
    unfold State.handOut
    rw [if_pos ⟨by omega,by omega⟩]
    cases hreg : v.regular with
    | false =>
      have h0 := hn hreg
      refine ⟨sane_reserved h.sane hr,fun c => ?_,fun c hw => ?_⟩
      · dsimp only [State.inWindow,Bool.false_eq_true,if_false]
        rw [if_neg Bool.false_ne_true]
        dsimp only
        rw [hnone c,Bool.false_or,← decide_not,← Bool.decide_and]
        apply decide_eq_decide.mpr
        omega
      · rw [if_neg Bool.false_ne_true] at hw
        unfold State.inWindow at hw
        dsimp only at hw
        omega
    | true =>
      rw [if_pos rfl,Nat.mod_eq_of_lt (by omega)]
      refine ⟨sane_reserved h.sane hr,fun c => ?_,fun c hw => ?_⟩
      · dsimp only [State.inWindow]
        rw [hnone c,Bool.false_or,← decide_not,← Bool.decide_and]
        apply decide_eq_decide.mpr
        omega
      · unfold State.inWindow at hw
        dsimp only at hw
        have hu := inUse_reserved h.sane hb hr (c-b) (by omega)
        rwa [Nat.add_sub_cancel' (by omega)] at hu
  · rw [he] at hm
    cases hm
    cases hreg : v.regular with
    | false =>
      exact ⟨h.sane,h.pending,h.inUse⟩
    | true => exact absurd (hfree hreg) hno

theorem alloc (bpref : UInt32) (size uid : ℕ) (icount ibn : UInt32)
    (hok : Supplied v s (.alloc bpref size uid icount ibn))
    (ha : s.alloc v bpref size uid icount ibn=some s') : Held v s' := by
  obtain ⟨hmax,hsup⟩ := hok
  unfold State.alloc at ha
  dsimp only at ha
  generalize (if v.g.blocksCount≤bpref.toNat then 0 else bpref.toNat)=p at ha
  split at ha
  · cases ha
    exact h
  rename_i hwhole
  split at ha
  · cases ha
    exact h
  split at ha
  · rename_i hhit
    cases ha
    exact h.hit hmax hhit.1
  cases hd : s.discard v.g with
  | none =>
    rw [hd] at ha
    cases ha
  | some t =>
    rw [hd] at ha
    obtain ⟨ht,h0,hfree,hsame⟩ := h.discard hd
    refine ht.miss hmax h0 (fun hreg => ?_) _ icount ibn ha
    by_cases hc : s.count=0
    · rw [hsame hc,h.sane.free_iff]
      -- with blocks left in the superblock's count some group has one
      by_contra hno
      have hz : s.fs.sFree=0 := by
        rw [h.sane.accounted.total]
        apply Finset.sum_eq_zero
        intro i hi
        by_contra hpos
        exact hno ⟨i,Finset.mem_range.mp hi,by omega⟩
      exact hwhole ⟨hsup hreg hz hc,hz⟩
    · exact hfree hc

theorem others {a : Alloc} (ha : Sane v.g a)
    (hk : ∀ b,s.inWindow b → a.bitmap (v.g.groupOf b) (v.g.bitOf b)=true) :
    Held v { s with fs := a } :=
  ⟨ha,h.pending,fun b hb => inUse_keep (h.inUse b hb) (hk b hb)⟩

theorem next (x : Call) (hok : Supplied v s x) (hn : s.next v x=some s') : Held v s' := by
  cases x with
  | alloc bpref size uid icount ibn => exact h.alloc bpref size uid icount ibn hok hn
  | discard => exact (h.discard hn).1
  | newBlock goal pre =>
    unfold State.next at hn
    dsimp only at hn
    rcases newBlock_cases h.sane goal pre with ⟨a,b,n,he,hb,hr,-⟩ | ⟨-,he⟩
    · rw [he] at hn
      cases hn
      refine h.others (sane_reserved h.sane hr) (fun c hc => ?_)
      rw [hr.bits,(h.inUse c hc).used]
      rfl
    · rw [he] at hn
      cases hn
      exact h.others h.sane (fun c hc => (h.inUse c hc).used)
  | freeBlocks block count =>
    unfold State.next at hn
    simp only [Option.ite_none_right_eq_some] at hn
    obtain ⟨hown,hn⟩ := hn
    cases hf : freeBlocks v.g s.fs block.toNat count.toNat with
    | none =>
      rw [hf] at hn
      cases hn
    | some a =>
      rw [hf] at hn
      cases hn
      have hw : block.toNat+count.toNat<2^64 := by
        have hb := block.toNat_lt
        have hcount := v.g.count_lt
        by_cases hc : count.toNat=0
        · omega
        · have hv := (hown (count.toNat-1) (by omega)).2.valid.2
          omega
      obtain ⟨hsane,hbits⟩ := sane_freed h.sane hw (fun k hk => (hown k hk).2) hf
      refine h.others hsane (fun c hc => ?_)
      have hout : ¬(block.toNat ≤ c ∧ c<block.toNat+count.toNat) := by
        rintro ⟨h1,h2⟩
        have hp := (hown (c-block.toNat) (by omega)).1
        rw [Nat.add_sub_cancel' h1,h.pending c,decide_eq_true hc] at hp
        cases hp
      rw [hbits c (h.inUse c hc).valid.1,(h.inUse c hc).used,decide_eq_false hout]
      rfl

end

end Held

theorem reach_held {s : State} (h : (preallocMachine v).Reach (Supplied v) s) : Held v s := by
  refine Machine.Reach.invariant ?_ (fun s s' x hs hok hn => hs.next x hok hn) h
  rintro s ⟨hsane,hc,hp⟩
  have hno (b : ℕ) : ¬s.inWindow b := by
    unfold State.inWindow
    omega
  exact ⟨hsane,fun b => by rw [hp b,decide_eq_false (hno b)],fun b hb => absurd hb (hno b)⟩

theorem Held.discard_pending {v : Setup} {s s' : State} (h : Held v s) (hd : s.discard v.g=some s')
    (b : ℕ) (hb : v.g.firstDataBlock≤b) (hset : s.fs.bitmap (v.g.groupOf b) (v.g.bitOf b)=true)
    (hclr : s'.fs.bitmap (v.g.groupOf b) (v.g.bitOf b)=false) : s.pending b=true := by
  unfold State.discard at hd
  by_cases hc : s.count=0
  · rw [if_pos hc] at hd
    cases hd
    rw [hset] at hclr
    cases hclr
  rw [if_neg hc] at hd
  have hlt := h.window_lt hc
  have hcount := v.g.count_lt
  cases hf : freeBlocks v.g s.fs s.block s.count with
  | none =>
    rw [hf] at hd
    cases hd
  | some a =>
    rw [hf] at hd
    cases hd
    have hbits := (sane_freed h.sane (by omega)
      (fun k hk => h.inUse (s.block+k) ⟨by omega,by omega⟩) hf).2 b hb
    rw [hclr,hset,Bool.true_and] at hbits
    rw [h.pending b]
    apply decide_eq_true
    by_contra hno
    unfold State.inWindow at hno
    rw [decide_eq_false hno] at hbits
    cases hbits

theorem Held.starved {v : Setup} {s : State} (h : Held v s) (bpref : UInt32) (size uid : ℕ)
    (icount ibn : UInt32) (hreg : v.regular=true) (hz : s.fs.sFree=0) (hc : s.count=0)
    (hsize : size≠v.blocksize) (huid : uid=0 ∨ v.rBlocks=0) :
    s.alloc v bpref size uid icount ibn=
      some { s with count := icount.toNat, block := ibn.toNat } := by
  have hno : ¬∃ b,v.g.Free s.fs b := by
    rw [h.sane.free_iff]
    rintro ⟨i,hi,hpos⟩
    have := h.sane.accounted.group_le_total i hi
    omega
  unfold State.alloc
  generalize (if v.g.blocksCount≤bpref.toNat then 0 else bpref.toNat)=p
  rw [if_neg (fun hw => hsize hw.1),if_neg (by omega),if_neg (fun hh => hh.1 hc)]
  unfold State.discard
  rw [if_pos hc]
  dsimp only
  unfold State.miss
  rcases newBlock_cases h.sane (signExtend p) v.regular with ⟨a,b,n,-,-,hr,-⟩ | ⟨-,he⟩
  · exact absurd ⟨b+0,(hr.free 0 (Nat.zero_le n)).1⟩ hno
  · rw [he]
    dsimp only
    rw [if_pos hreg]

/-- The window of an inode is its pending blocks in every sequence of such calls. A call for less
than a block on a full filesystem makes two uninitialised variables the window. -/
theorem window_pending (v : Setup) (s : State) (h : (preallocMachine v).Reach (Supplied v) s) :
    (∀ b,s.pending b=true ↔ s.inWindow b) ∧
    (∀ s',s.discard v.g=some s' → ∀ b,v.g.firstDataBlock≤b →
      s.fs.bitmap (v.g.groupOf b) (v.g.bitOf b)=true →
      s'.fs.bitmap (v.g.groupOf b) (v.g.bitOf b)=false → s.pending b=true) ∧
    ∀ bpref size uid icount ibn,v.g.blocksCount≤2^31 →
      ¬Supplied v s (.alloc bpref size uid icount ibn) → uid=0 ∨ v.rBlocks=0 →
      s.alloc v bpref size uid icount ibn=
        some { s with count := icount.toNat, block := ibn.toNat } := by
  have hs := reach_held v h
  refine ⟨fun b => ?_,fun s' hd b => hs.discard_pending hd b,?_⟩
  · rw [hs.pending b,decide_eq_true_iff]
  · intro bpref size uid icount ibn hmax hno huid
    unfold Supplied at hno
    simp only [hmax,true_and,Classical.not_imp] at hno
    obtain ⟨hreg,hz,hc,hsize⟩ := hno
    exact hs.starved bpref size uid icount ibn hreg hz hc hsize huid

def oneFile : Setup where
  g := oneGroup
  blocksize := 1024
  rBlocks := 0
  regular := true

def noWindow (a : Alloc) : State where
  fs := a
  block := 0
  count := 0
  pending _ := false

theorem window_pending_oneFile :
    ∃ s,(preallocMachine oneFile).exec [.alloc 10 1024 0 0 0,.alloc 10 1024 0 0 0]
        (noWindow emptyGroup.fs)=some s ∧ s.block=12 ∧ s.count=1 ∧
      ∀ b,s.pending b=true ↔ s.inWindow b := by
  have he : (preallocMachine oneFile).exec [.alloc 10 1024 0 0 0,.alloc 10 1024 0 0 0]
      (noWindow emptyGroup.fs)=some _ := rfl
  have h0 : (preallocMachine oneFile).init (noWindow emptyGroup.fs) :=
    ⟨emptyGroup_sane,rfl,fun _ => rfl⟩
  have hm : (preallocMachine oneFile).Meets (Supplied oneFile)
      [.alloc 10 1024 0 0 0,.alloc 10 1024 0 0 0] (noWindow emptyGroup.fs) :=
    ⟨⟨by decide,fun _ _ _ => rfl⟩,fun _ _ => ⟨⟨by decide,fun _ _ _ => rfl⟩,fun _ _ => trivial⟩⟩
  have hr := (Machine.Reach.start h0).exec hm he
  exact ⟨_,he,by decide +kernel,by decide +kernel,(window_pending oneFile _ hr).1⟩

def fragmentFile : Setup := { oneFile with blocksize := 4096 }

def fullGroup : Alloc where
  bitmap _ _ := true
  bgFree _ := 0
  sFree := 0
  descDirty _ := false
  sDirt := false

theorem fullGroup_sane : Sane oneGroup fullGroup := by
  refine ⟨⟨?_,?_⟩,fun _ _ _ _ _ => rfl,fun _ _ _ _ _ => rfl,fun _ => rfl,
    emptyGroup_sane.tables,emptyGroup_sane.table_pos⟩
  · decide +kernel
  · decide +kernel

/-- A failed call leaves the window [20,25), which nobody reserved; the next discard frees it. -/
theorem discard_frees_foreign :
    (preallocMachine fragmentFile).init (noWindow fullGroup) ∧
    ∃ s t,(preallocMachine fragmentFile).exec [.alloc 10 1024 0 5 20] (noWindow fullGroup)=some s ∧
      s.pending 20=false ∧ s.inWindow 20 ∧
      (preallocMachine fragmentFile).exec [.discard] s=some t ∧
      s.fs.bitmap 0 19=true ∧ t.fs.bitmap 0 19=false ∧ oneGroup.blockAt 0 19=20 :=
  ⟨⟨fullGroup_sane,rfl,fun _ => rfl⟩,_,_,rfl,by decide +kernel,by decide +kernel,rfl,
    by decide +kernel,by decide +kernel,rfl⟩

end Ext2fsX.Preallocation
