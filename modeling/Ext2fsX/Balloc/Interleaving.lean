import Ext2fsX.Balloc.Accounting
import Ext2fsX.Framework.Holders
import Ext2fsX.Framework.Machine

namespace Ext2fsX.Balloc

open Framework
open Function (update update_self update_of_ne)

inductive Cont where
  | goal (goal : ℕ) (pre : Bool) (j : ℕ)
  | scan (goal : ℕ) (pre : Bool)
  | free (bit block count : ℕ)
  deriving DecidableEq

/-- Between two regions under the superblock lock: outside, in `buf_meta_bread` for the bitmap of
group `i`, in `lock_super` with that buffer held, or with the buffer still to be given up. -/
inductive Pc where
  | idle
  | read (i : ℕ) (c : Cont)
  | locked (i : ℕ) (c : Cont)
  | write (i : ℕ)
  deriving DecidableEq

variable {τ : Type} [DecidableEq τ]

/-- `held t` lists the blocks caller `t` has, single blocks and windows alike. -/
structure State (τ : Type) where
  fs : Alloc
  buf : ℕ → Option τ
  pc : τ → Pc
  held : τ → List ℕ
  panicked : Bool

inductive Act (τ : Type) where
  | newBlock (t : τ) (goal : ℕ) (pre : Bool)
  | freeBlocks (t : τ) (block count : ℕ)
  | bread (t : τ)
  | resume (t : τ)
  | bwrite (t : τ)
  | give (t u : τ) (b : ℕ)

namespace State

variable (s : State τ)

def goto (t : τ) (p : Pc) : State τ := { s with pc := update s.pc t p }

def release (i : ℕ) : State τ := { s with buf := update s.buf i none }

def search (t : τ) (goal : ℕ) (pre : Bool) : Search → State τ
  | .goal i j => s.goto t (.read i (.goal goal pre j))
  | .scan i => s.goto t (.read i (.scan goal pre))
  | .full => s.goto t .idle

/-- The end of a region that reached `got_block:` with the bitmap of group `i`. -/
def take (g : Geometry) (s : State τ) (t : τ) (goal : ℕ) (pre : Bool) (i : ℕ) : Got → State τ
  | .panic => { s with panicked := true }
  | .again => (s.release i).search t goal pre (newBlockStart g s.fs goal)
  | .lost a => { s with fs := a }.goto t (.write i)
  | .got a b n =>
    { s with
      fs := a
      held := update s.held t (s.held t++List.range' b (n+1)) }.goto t (.write i)

def dropRange (t : τ) (block count : ℕ) : State τ :=
  { s with
    held := update s.held t
      ((s.held t).filter (fun b => !decide (block≤b ∧ b<block+count))) }

def handOver (t u : τ) (b : ℕ) : State τ :=
  let h := update s.held t ((s.held t).erase b)
  { s with held := update h u (h u++[b]) }

/-- The region a caller runs when it has retaken the lock with its buffer. -/
def resume (g : Geometry) (s : State τ) (t : τ) : Option (State τ) :=
  match s.pc t with
  | .locked i (.goal goal pre j) =>
    match goalSearch g.blocksPerGroup (s.fs.bitmap i) j with
    | some k => some (s.take g t goal pre i (gotBlock g s.fs pre i k))
    | none => some ((s.release i).search t goal pre (nextGroup g s.fs g.groupsCount i))
  | .locked i (.scan goal pre) =>
    match scanSearch g.blocksPerGroup (s.fs.bitmap i) with
    | some k => some (s.take g t goal pre i (gotBlock g s.fs pre i k))
    | none => some (s.goto t (.write i))
  | .locked i (.free bit block count) =>
    match freeBlocksFinish g s.fs i bit block count with
    | some a => some ((({ s with fs := a }).dropRange t block count).goto t (.write i))
    | none => some { s with panicked := true }
  | _ => none

/-- A caller frees only blocks it holds; blocks pass between callers only while the giver is
outside. -/
def next (g : Geometry) (x : Act τ) (s : State τ) : Option (State τ) :=
  if s.panicked then none
  else match x with
  | .newBlock t goal pre =>
    if s.pc t=.idle then some (s.search t goal pre (newBlockStart g s.fs goal)) else none
  | .freeBlocks t block count =>
    if s.pc t=.idle ∧ ∀ k < count,block+k∈s.held t then
      match freeBlocksStart g block count with
      | .outside => some s
      | .panic => some { s with panicked := true }
      | .read i bit => some (s.goto t (.read i (.free bit block count)))
    else none
  | .bread t =>
    match s.pc t with
    | .read i c =>
      if s.buf i=none then
        some ({ s with buf := update s.buf i (some t) }.goto t (.locked i c))
      else none
    | _ => none
  | .resume t => s.resume g t
  | .bwrite t =>
    match s.pc t with
    | .write i => some ((s.release i).goto t .idle)
    | _ => none
  | .give t u b =>
    if s.pc t=.idle ∧ b∈s.held t then some (s.handOver t u b) else none

end State

/-- Counters and bitmaps agree, the bits past the end and of the system zones are set, held blocks
are data blocks marked used, and none is held twice. -/
structure Consistent (g : Geometry) (a : Alloc) (held : τ → List ℕ) : Prop where
  accounted : Accounted g a
  tail : TailSet g a
  system : ∀ i b,i<g.groupsCount → g.System i b → g.Valid b →
    a.bitmap (g.groupOf b) (g.bitOf b)=true
  valid : ∀ t,∀ b∈held t,g.Valid b
  used : ∀ t,∀ b∈held t,a.bitmap (g.groupOf b) (g.bitOf b)=true
  data : ∀ t,∀ b∈held t,∀ i<g.groupsCount,¬g.System i b
  nodup : ∀ t,(held t).Nodup
  disjoint : ∀ t u b,b∈held t → b∈held u → t=u

def ballocMachine (g : Geometry) (τ : Type) [DecidableEq τ] : Machine (State τ) (Act τ) where
  init s := Consistent g s.fs s.held ∧ (∀ t,s.pc t=.idle) ∧ (∀ i,s.buf i=none) ∧ s.panicked=false
  next := State.next g

private theorem run_block (g : Geometry) (i j n b : ℕ) (hn : j+n<g.blocksPerGroup)
    (hb : b∈List.range' (g.blockAt i j) (n+1)) :
    ∃ q,j≤q ∧ q≤j+n ∧ b=g.blockAt i q ∧ g.groupOf b=i ∧ g.bitOf b=q := by
  obtain ⟨h1,h2⟩ := List.mem_range'_1.mp hb
  have he : b=g.blockAt i (j+(b-g.blockAt i j)) := by
    rw [← g.blockAt_add]
    omega
  have ho := g.of_blockAt i (j+(b-g.blockAt i j)) (by omega)
  rw [← he] at ho
  exact ⟨j+(b-g.blockAt i j),by omega,by omega,he,ho⟩

structure Owned (g : Geometry) (a : Alloc) (b : ℕ) : Prop where
  valid : g.Valid b
  used : a.bitmap (g.groupOf b) (g.bitOf b)=true
  data : ∀ i<g.groupsCount,¬g.System i b

namespace Consistent

variable {g : Geometry} {a a' : Alloc} {held : τ → List ℕ}

omit [DecidableEq τ] in
theorem of (ha : Accounted g a) (ht : TailSet g a)
    (hs : ∀ i b,i<g.groupsCount → g.System i b → g.Valid b →
      a.bitmap (g.groupOf b) (g.bitOf b)=true)
    (ho : ∀ t,∀ b∈held t,Owned g a b) (hd : Apart held) : Consistent g a held :=
  ⟨ha,ht,hs,fun t b hb => (ho t b hb).valid,fun t b hb => (ho t b hb).used,
    fun t b hb => (ho t b hb).data,hd.nodup,hd.disjoint⟩

variable (h : Consistent g a held)
include h

omit [DecidableEq τ] in
theorem owned {t : τ} {b : ℕ} (hb : b∈held t) : Owned g a b :=
  ⟨h.valid t b hb,h.used t b hb,h.data t b hb⟩

omit [DecidableEq τ] in
theorem apart : Apart held := ⟨h.nodup,h.disjoint⟩

omit [DecidableEq τ] in
theorem clear_free (i q : ℕ) (hi : i<g.groupsCount) (hq : q<g.blocksPerGroup)
    (hc : a.bitmap i q=false) :
    g.Valid (g.blockAt i q) ∧ (∀ k<g.groupsCount,¬g.System k (g.blockAt i q)) ∧
      ∀ t,g.blockAt i q∉held t := by
  have hclear : ¬a.bitmap (g.groupOf (g.blockAt i q)) (g.bitOf (g.blockAt i q))=true := by
    rw [(g.of_blockAt i q hq).1,(g.of_blockAt i q hq).2,hc]
    exact Bool.false_ne_true
  have hv := h.tail.valid hi hq hc
  exact ⟨hv,fun k hk hsys => hclear (h.system k _ hk hsys hv),fun t hm => hclear (h.used t _ hm)⟩

theorem took (t : τ) {i j n : ℕ} (hi : i<g.groupsCount) (hk : Took g a a' i j n) :
    Consistent g a' (receive held t (List.range' (g.blockAt i j) (n+1))) := by
  have keep (k q : ℕ) (hs : a.bitmap k q=true) : a'.bitmap k q=true := by rw [hk.set,hs]; rfl
  have fresh (b : ℕ) (hb : b∈List.range' (g.blockAt i j) (n+1)) : Owned g a' b ∧ ∀ u,b∉held u := by
    obtain ⟨q,h1,h2,rfl,hg,hbit⟩ := run_block g i j n b hk.inside hb
    have hin := hk.inside
    obtain ⟨hv,hs,hn⟩ := h.clear_free i q hi (by omega) (hk.clear q h1 h2)
    refine ⟨⟨hv,?_,hs⟩,hn⟩
    rw [hg,hbit,hk.set]
    simp [h1,h2]
  refine .of hk.accounted (fun k q h1 h2 h3 => keep k q (h.tail k q h1 h2 h3))
    (fun k b h1 h2 h3 => keep _ _ (h.system k b h1 h2 h3)) ?_
    (h.apart.receive t _ List.nodup_range' fun b hb => (fresh b hb).2)
  intro u b hb
  obtain hm | ⟨-,hm⟩ := (mem_receive _ _ _ _ _).mp hb
  · exact ⟨h.valid u b hm,keep _ _ (h.used u b hm),h.data u b hm⟩
  · exact (fresh b hm).1

theorem freed (t : τ) (block count : ℕ)
    (hf : Freed g a a' (g.groupOf block) (g.bitOf block) count) (hfirst : g.firstDataBlock≤block)
    (hlast : block+count≤g.blocksCount) (hown : ∀ k < count,block+k∈held t) :
    Consistent g a' (update held t
      ((held t).filter (fun b => !decide (block≤b ∧ b<block+count)))) := by
  have hblk := g.blockAt_of block hfirst
  have owned (b : ℕ) (hr : block≤b ∧ b<block+count) : b∈held t := by
    have hm := hown (b-block) (by omega)
    rwa [Nat.add_sub_cancel' hr.1] at hm
  have keep (b : ℕ) (hv : g.Valid b) (hs : a.bitmap (g.groupOf b) (g.bitOf b)=true)
      (hr : ¬(block≤b ∧ b<block+count)) : a'.bitmap (g.groupOf b) (g.bitOf b)=true := by
    have hout : ¬(g.groupOf b=g.groupOf block ∧ g.bitOf block≤g.bitOf b ∧
        g.bitOf b<g.bitOf block+count) :=
      fun ⟨hg,h12⟩ => hr ((g.bits_iff hfirst hv.1 hg count).mp h12)
    rw [hf.bits,hs]
    simp [hout]
  have hsub (u : τ) : (update held t
      ((held t).filter (fun b => !decide (block≤b ∧ b<block+count))) u).Sublist (held u) := by
    by_cases hu : u=t
    · subst hu
      rw [update_self]
      exact List.filter_sublist
    · rw [update_of_ne hu]
  refine .of hf.accounted (hf.tail h.tail (by rwa [hblk])) ?_ ?_ (h.apart.sublist hsub)
  · intro i b hi hs hv
    exact keep b hv (h.system i b hi hs hv) (fun hr => h.data t b (owned b hr) i hi hs)
  · intro u b hb
    have hm := (hsub u).subset hb
    refine ⟨h.valid u b hm,keep b (h.valid u b hm) (h.used u b hm) fun hr => ?_,h.data u b hm⟩
    obtain rfl := h.disjoint u t b hm (owned b hr)
    simp [hr] at hb

theorem handOver (t u : τ) (b : ℕ) (hb : b∈held t) :
    Consistent g a (receive (giveUp held t b) u [b]) := by
  refine .of h.accounted h.tail h.system ?_ (h.apart.give t u b hb)
  intro v c hc
  obtain ⟨w,hw⟩ := Apart.mem_give hb hc
  exact h.owned hw

end Consistent

/-- Its group exists, its goal is a bit of that group, what it frees lies there and is its own. -/
def Cont.Known (g : Geometry) (own : List ℕ) (i : ℕ) : Cont → Prop
  | .goal _ _ j => i<g.groupsCount ∧ j<g.blocksPerGroup
  | .scan _ _ => i<g.groupsCount
  | .free bit block count =>
    i<g.groupsCount ∧ i=g.groupOf block ∧ bit=g.bitOf block ∧ bit+count≤g.blocksPerGroup ∧
      g.firstDataBlock≤block ∧ block+count≤g.blocksCount ∧ ∀ k < count,block+k∈own

def Pc.Known (g : Geometry) (own : List ℕ) : Pc → Prop
  | .read i c => c.Known g own i
  | .locked i c => c.Known g own i
  | _ => True

theorem Pc.Known.mono {g : Geometry} {own own' : List ℕ} {p : Pc} (h : p.Known g own)
    (hs : ∀ b∈own,b∈own') : p.Known g own' := by
  have cont (i : ℕ) (c : Cont) (hc : c.Known g own i) : c.Known g own' i := by
    cases c with
    | free bit block count =>
      obtain ⟨h1,h2,h3,h4,h5,h6,h7⟩ := hc
      exact ⟨h1,h2,h3,h4,h5,h6,fun k hk => hs _ (h7 k hk)⟩
    | _ => exact hc
  cases p with
  | read i c => exact cont i c h
  | locked i c => exact cont i c h
  | _ => trivial

structure Sound (g : Geometry) (s : State τ) : Prop where
  consistent : Consistent g s.fs s.held
  known : ∀ t,(s.pc t).Known g (s.held t)

namespace Sound

variable {g : Geometry} {s : State τ}

section

variable (h : Sound g s)

include h

variable (t : τ)

theorem goto (p : Pc) (hp : p.Known g (s.held t)) : Sound g (s.goto t p) := by
  refine ⟨h.consistent,fun u => ?_⟩
  by_cases hu : u=t
  · subst hu
    simpa [State.goto] using hp
  · simpa [State.goto,update_of_ne hu] using h.known u

omit [DecidableEq τ] in
theorem release (i : ℕ) : Sound g (s.release i) := ⟨h.consistent,h.known⟩

theorem search (goal : ℕ) (pre : Bool) (r : Search)
    (hg : ∀ i j,r=.goal i j → i<g.groupsCount ∧ j<g.blocksPerGroup)
    (hs : ∀ i,r=.scan i → i<g.groupsCount) : Sound g (s.search t goal pre r) := by
  cases r with
  | goal i j => exact h.goto t _ (hg i j rfl)
  | scan i => exact h.goto t _ (hs i rfl)
  | full => exact h.goto t _ trivial

theorem newBlock (goal : ℕ) (pre : Bool) :
    Sound g (s.search t goal pre (newBlockStart g s.fs goal)) :=
  h.search t goal pre _ (fun i j => newBlockStart_goal g s.fs goal i j)
    (fun i => newBlockStart_scan g s.fs goal i)

/-- A caller that is done with the bitmap has other blocks than before. -/
theorem change (fs : Alloc) (own : List ℕ) (i : ℕ) (hc : Consistent g fs (update s.held t own)) :
    Sound g ({ s with fs := fs, held := update s.held t own }.goto t (.write i)) := by
  refine ⟨hc,fun u => ?_⟩
  by_cases hu : u=t
  · subst hu
    simp only [State.goto,update_self]
    trivial
  · simpa [State.goto,update_of_ne hu] using h.known u

theorem take (goal : ℕ) (pre : Bool) (i k : ℕ) (hi : i<g.groupsCount)
    (hk : k<g.blocksPerGroup) (hc : s.fs.bitmap i k=false) :
    Sound g (s.take g t goal pre i (gotBlock g s.fs pre i k)) := by
  rcases gotBlock_cases g s.fs pre i k h.consistent.accounted h.consistent.tail hi hk hc with
    hp | ⟨a,n,hgot,htook⟩
  · rw [hp]
    exact ⟨h.consistent,h.known⟩
  · rw [hgot]
    exact h.change t a _ i (h.consistent.took t hi htook)

theorem free (i bit block count : ℕ) (a : Alloc)
    (hk : (Cont.free bit block count).Known g (s.held t) i)
    (hf : freeBlocksFinish g s.fs i bit block count=some a) :
    Sound g ((({ s with fs := a }).dropRange t block count).goto t (.write i)) := by
  obtain ⟨hi,rfl,rfl,hin,hfirst,hlast,hown⟩ := hk
  have hblk := g.blockAt_of block hfirst
  have hused (q : ℕ) (h1 : g.bitOf block≤q) (h2 : q<g.bitOf block+count) :
      s.fs.bitmap (g.groupOf block) q=true := by
    have hm := h.consistent.used t _ (hown (q-g.bitOf block) (by omega))
    obtain ⟨ho,ho'⟩ := @g.of_add block hfirst (q-g.bitOf block) (by omega)
    rwa [ho,ho',Nat.add_sub_cancel' h1] at hm
  have hfreed := freeBlocksFinish_freed g s.fs a (g.groupOf block) (g.bitOf block) block count
    h.consistent.accounted h.consistent.tail hi hin hused (by omega) hf
  exact h.change t a _ _ (h.consistent.freed t block count hfreed hfirst hlast hown)

theorem resume {s' : State τ} (hn : s.resume g t=some s') : Sound g s' := by
  have hkn := h.known t
  unfold State.resume at hn
  cases hp : s.pc t with
  | locked i c =>
    rw [hp] at hkn
    cases c with
    | goal goal pre j =>
      obtain ⟨hi,hj⟩ : i<g.groupsCount ∧ j<g.blocksPerGroup := hkn
      cases hg : goalSearch g.blocksPerGroup (s.fs.bitmap i) j with
      | some k =>
        obtain ⟨hk,hc⟩ := goalSearch_sound _ _ j k g.bpg_dvd g.bpg_lt hj hg
        simp only [hp,hg,Option.some.injEq] at hn
        exact hn ▸ h.take t goal pre i k hi hk hc
      | none =>
        simp only [hp,hg,Option.some.injEq] at hn
        rw [← hn]
        exact (h.release i).search t goal pre _
          (fun i' j' he => absurd he (nextGroup_ne_goal g s.fs _ i i' j'))
          (fun i' he => nextGroup_lt g s.fs _ i i' g.groupsCount_pos he)
    | scan goal pre =>
      have hi : i<g.groupsCount := hkn
      cases hg : scanSearch g.blocksPerGroup (s.fs.bitmap i) with
      | some k =>
        obtain ⟨hk,hc⟩ := scanSearch_sound _ _ k g.bpg_dvd hg
        simp only [hp,hg,Option.some.injEq] at hn
        exact hn ▸ h.take t goal pre i k hi hk hc
      | none =>
        simp only [hp,hg,Option.some.injEq] at hn
        exact hn ▸ h.goto t _ trivial
    | free bit block count =>
      cases hf : freeBlocksFinish g s.fs i bit block count with
      | some a =>
        simp only [hp,hf,Option.some.injEq] at hn
        exact hn ▸ h.free t i bit block count a hkn hf
      | none =>
        simp only [hp,hf,Option.some.injEq] at hn
        exact hn ▸ ⟨h.consistent,h.known⟩
  | _ => simp [hp] at hn

theorem handOver (t u : τ) (b : ℕ) (ht : s.pc t=.idle) (hb : b∈s.held t) :
    Sound g (s.handOver t u b) := by
  refine ⟨h.consistent.handOver t u b hb,fun v => ?_⟩
  by_cases hv : v=t
  · subst hv
    simp only [State.handOver,ht]
    trivial
  apply (h.known v).mono
  intro c hc
  by_cases hu : v=u
  · subst hu
    simp [State.handOver,update_of_ne hv,hc]
  · simpa [State.handOver,update_of_ne hv,update_of_ne hu] using hc

theorem next (x : Act τ) {s' : State τ} (hn : s.next g x=some s') : Sound g s' := by
  unfold State.next at hn
  split at hn
  · cases hn
  cases x with
  | newBlock t goal pre =>
    simp only [Option.ite_none_right_eq_some,Option.some.injEq] at hn
    exact hn.2 ▸ h.newBlock t goal pre
  | freeBlocks t block count =>
    simp only [Option.ite_none_right_eq_some] at hn
    obtain ⟨⟨hidle,hown⟩,hn⟩ := hn
    unfold freeBlocksStart at hn
    split_ifs at hn with h1 h2 h3
    · cases hn
      exact h
    · cases hn
      exact ⟨h.consistent,h.known⟩
    · cases hn
      exact ⟨h.consistent,h.known⟩
    · cases hn
      exact h.goto t _ ⟨by omega,rfl,rfl,by omega,by omega,by omega,hown⟩
  | bread t =>
    cases hp : s.pc t with
    | read i c =>
      simp only [hp,Option.ite_none_right_eq_some,Option.some.injEq] at hn
      have hkn := h.known t
      rw [hp] at hkn
      have hb : Sound g { s with buf := update s.buf i (some t) } := ⟨h.consistent,h.known⟩
      exact hn.2 ▸ hb.goto t _ hkn
    | _ => simp [hp] at hn
  | resume t => exact h.resume t hn
  | bwrite t =>
    cases hp : s.pc t with
    | write i =>
      simp only [hp,Option.some.injEq] at hn
      exact hn ▸ (h.release i).goto t _ trivial
    | _ => simp [hp] at hn
  | give t u b =>
    simp only [Option.ite_none_right_eq_some,Option.some.injEq] at hn
    exact hn.2 ▸ h.handOver t u b hn.1.1 hn.1.2

end

end Sound

theorem reach_sound (g : Geometry) {s : State τ} (h : (ballocMachine g τ).Reach Machine.anyStep s) : Sound g s := by
  refine Machine.Reach.invariant ?_ ?_ h
  · intro s hs
    refine ⟨hs.1,fun t => ?_⟩
    rw [hs.2.1 t]
    trivial
  · intro s s' x hs _ hn
    exact hs.next x hn

/-- At every release of the superblock lock the counters agree with the bitmaps and no block is held
twice. -/
theorem balloc_interleaving (g : Geometry) (s : State τ)
    (h : (ballocMachine g τ).Reach Machine.anyStep s) :
    (∀ i<g.groupsCount,s.fs.bgFree i=clearBits (s.fs.bitmap i) g.blocksPerGroup) ∧
      s.fs.sFree=(∑ i ∈ Finset.range g.groupsCount,clearBits (s.fs.bitmap i) g.blocksPerGroup) ∧
      (∀ t,(s.held t).Nodup) ∧ ∀ t u b,b∈s.held t → b∈s.held u → t=u := by
  have hs := (reach_sound g h).consistent
  refine ⟨hs.accounted.group,?_,hs.nodup,hs.disjoint⟩
  rw [hs.accounted.total]
  exact Finset.sum_congr rfl (fun i hi => hs.accounted.group i (Finset.mem_range.mp hi))

def oneGroup : Geometry where
  firstDataBlock := 1
  blocksCount := 65
  blocksPerGroup := 64
  groupsCount := 1
  descPerBlock := 32
  itpg := 2
  preallocBlocks := 3
  blockBitmap _ := 1
  inodeBitmap _ := 2
  inodeTable _ := 3
  first_lt := by decide
  count_lt := by decide
  bpg_pos := by decide
  bpg_dvd := by decide
  bpg_lt := by decide
  groups_eq := by decide

def emptyGroup : State Bool where
  fs :=
    { bitmap := fun _ j => decide (j<4)
      bgFree := fun _ => 60
      sFree := 60
      descDirty := fun _ => false
      sDirt := false }
  buf _ := none
  pc _ := .idle
  held _ := []
  panicked := false

theorem emptyGroup_init : (ballocMachine oneGroup Bool).init emptyGroup := by
  refine ⟨⟨⟨?_,?_⟩,?_,?_,?_,?_,?_,?_,?_⟩,fun _ => rfl,fun _ => rfl,rfl⟩
  · decide
  · decide
  · intro i j hi hj hp
    change i<1 at hi
    change j<64 at hj
    change 65≤j+i*64+1 at hp
    omega
  · intro i b hi hs hv
    have hb : b<5 := by
      rcases hs with hs | hs | hs <;> simp only [oneGroup] at hs <;> omega
    change decide ((b-1)%64<4)=true
    simp only [decide_eq_true_eq]
    omega
  · intro t b hb
    cases hb
  · intro t b hb
    cases hb
  · intro t b hb
    cases hb
  · exact fun t => List.nodup_nil
  · intro t u b hb
    cases hb

def twoCallers : List (Act Bool) :=
  [.newBlock true 10 true,.newBlock false 10 false,.bread true,.resume true,.bwrite true,
    .bread false,.freeBlocks true 11 2,.resume false,.bwrite false,.bread true,.resume true]

theorem balloc_interleaving_two :
    ∃ s,(ballocMachine oneGroup Bool).exec twoCallers emptyGroup=some s ∧
      s.held true=[10] ∧ s.held false=[13] ∧ s.fs.sFree=58 ∧
      s.fs.bgFree 0=clearBits (s.fs.bitmap 0) 64 := by
  have he : (ballocMachine oneGroup Bool).exec twoCallers emptyGroup=some _ := rfl
  have hm : (ballocMachine oneGroup Bool).Meets Machine.anyStep twoCallers emptyGroup := by decide
  have hr := (Machine.Reach.start emptyGroup_init).exec hm he
  exact ⟨_,he,by decide,by decide,by decide,(balloc_interleaving oneGroup _ hr).1 0 (by decide)⟩

end Ext2fsX.Balloc
