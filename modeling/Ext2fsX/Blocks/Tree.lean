import Ext2fsX.Blocks.Truncate
import Mathlib.Data.List.Perm.Basic
import Mathlib.Data.List.Nodup
import Mathlib.Algebra.Order.Ring.Nat

namespace Ext2fsX.Blocks

variable {g : Geometry}

structure Block where
  addr : ℤ
  start : ℕ
  span : ℕ

namespace State

def child (g : Geometry) (s : State) (lbn nb : ℤ) (i : ℕ) : ℤ :=
  match s.cache lbn with
  | some b => b.ptrs i
  | none => s.disk (g.fsbtodb nb) i

/-- The blocks at and below `nb`, which is `h` levels above the data. -/
def under (g : Geometry) (s : State) : ℕ → ℤ → ℤ → ℕ → List Block
  | 0,_,nb,start => [⟨nb,start,1⟩]
  | h+1,lbn,nb,start =>
    ⟨nb,start,g.nindir^(h+1)⟩::(List.range g.nindir).flatMap (fun i =>
      if s.child g lbn nb i=0 then []
      else s.under g h (lbn+1-(i*g.nindir^h : ℕ)) (s.child g lbn nb i) (start+i*g.nindir^h))

def directBlock (s : State) (i : ℕ) : List Block := if s.db i=0 then [] else [⟨s.db i,i,1⟩]

def rootBlocks (g : Geometry) (s : State) (level : ℕ) : List Block :=
  if s.ib level=0 then []
  else s.under g (level+1) (indirLbn g.nindir level) (s.ib level) (rootStart g.nindir level)

def tree (g : Geometry) (s : State) : List Block :=
  (List.range 12).flatMap s.directBlock++(List.range 3).flatMap (s.rootBlocks g)

def window (s : State) : List ℤ :=
  (List.range s.preallocCount).map (fun i : ℕ => (s.preallocBlock : ℤ)+(i : ℤ))

/-- Every pointer names a block of its own. -/
structure WellFormed (g : Geometry) (s : State) : Prop where
  nodup : ((s.tree g).map Block.addr++s.window).Nodup
  pos : ∀ b∈s.tree g,0<b.addr

/-- Under `nb`, of which something is kept, the pointers to what starts at block `k` or behind are
zero, and no others have changed. -/
def CutBelow (g : Geometry) (k : ℕ) (s s' : State) : ℕ → ℤ → ℤ → ℕ → Prop
  | 0,_,_,_ => True
  | h+1,lbn,nb,start => start<k → ∀ i<g.nindir,
      s'.child g lbn nb i=(if k ≤ start+i*g.nindir^h then 0 else s.child g lbn nb i) ∧
      (s.child g lbn nb i≠0 → CutBelow g k s s' h (lbn+1-(i*g.nindir^h : ℕ))
        (s.child g lbn nb i) (start+i*g.nindir^h))

def beyond (g : Geometry) (s : State) (k : ℕ) : List ℤ :=
  ((s.tree g).filter (fun b => decide (k≤b.start))).map Block.addr

/-- From `s` to `s'` the file has lost what starts at block `k` or behind it. -/
structure Cut (g : Geometry) (k : ℕ) (s s' : State) : Prop where
  freed : s'.freed.Perm (s.freed++s.beyond g k)
  direct : ∀ i<12,s'.db i=if k ≤ i then 0 else s.db i
  roots : ∀ l<3,s'.ib l=if k ≤ rootStart g.nindir l then 0 else s.ib l
  inner : ∀ l<3,s.ib l≠0 →
    CutBelow g k s s' (l+1) (indirLbn g.nindir l) (s.ib l) (rootStart g.nindir l)
  blocks : s'.blocks=s.blocks-(g.btodb g.blocksize*(s.beyond g k).length : ℕ)

/-- The reserved blocks have been given back, and the file has got blocks on the way to byte
`length`, if that is not the first of a block. -/
structure Filled (g : Geometry) (length : ℕ) (s s' : State) (new : List Block) : Prop where
  freed : s'.freed=s.freed++s.window
  tree : (s'.tree g).Perm (new++s.tree g)
  path : ∀ b∈new,length%g.blocksize≠0 ∧ b.start≤length/g.blocksize ∧
    length/g.blocksize<b.start+b.span
  blocks : s'.blocks=s.blocks+(g.btodb g.blocksize*new.length : ℕ)

def keptBlocks (g : Geometry) (length : ℕ) : ℕ := (length+g.blocksize-1)/g.blocksize

def Truncated (g : Geometry) (length : ℕ) (s s' : State) : Prop :=
  s'.size=length ∧ ∃ s1 new,Filled g length s s1 new ∧ Cut g (keptBlocks g length) s1 s' ∧
    (s.window++s1.beyond g (keptBlocks g length)).Nodup

theorem nindir_pos (g : Geometry) : 0<g.nindir := by
  exact Nat.mul_pos (by decide) (Nat.two_pow_pos _)

theorem blocksize_pos (g : Geometry) : 0<g.blocksize := by
  exact Nat.mul_pos (by decide) (Nat.two_pow_pos _)

theorem span_le {h i : ℕ} (hi : i<g.nindir) : i*g.nindir^h+g.nindir^h≤g.nindir^(h+1) := by
  rw [Nat.pow_succ,Nat.mul_comm (g.nindir^h),← Nat.succ_mul]
  exact Nat.mul_le_mul_right _ hi

theorem under_range (s : State) (h : ℕ) (lbn nb : ℤ) (start : ℕ) :
    ∀ b∈s.under g h lbn nb start,start≤b.start ∧ b.start+b.span ≤ start+g.nindir^h := by
  induction h generalizing lbn nb start with
  | zero =>
    intro b hb
    obtain rfl := List.mem_singleton.mp hb
    simp
  | succ h ih =>
    intro b hb
    rcases List.mem_cons.mp hb with rfl | hb
    · simp
    obtain ⟨i,hi,hb⟩ := List.mem_flatMap.mp hb
    rw [List.mem_range] at hi
    split at hb
    · cases hb
    · obtain ⟨h1,h2⟩ := ih _ _ _ b hb
      have hstep := span_le (h := h) hi
      omega

variable {s s' : State}

section

variable (hc : s'.cache=s.cache)

include hc

section

variable (hd : s'.disk=s.disk)

include hd

theorem under_congr (h : ℕ)
    (lbn nb : ℤ) (start : ℕ) : s'.under g h lbn nb start=s.under g h lbn nb start := by
  have hchild : s'.child g=s.child g := by
    unfold child
    rw [hc,hd]
  induction h generalizing lbn nb start with
  | zero => rfl
  | succ h ih =>
    unfold under
    rw [hchild]
    congr 2
    funext i
    rw [ih]

theorem rootBlocks_congr (hi : s'.ib=s.ib) : s'.rootBlocks g=s.rootBlocks g := by
  funext level
  unfold rootBlocks
  rw [hi,under_congr hc hd]

theorem tree_congr (hdb : s'.db=s.db) (hi : s'.ib=s.ib) : s'.tree g=s.tree g := by
  have hdirect : s'.directBlock=s.directBlock := by
    funext i
    unfold directBlock
    rw [hdb]
  unfold tree
  rw [hdirect,rootBlocks_congr hc hd hi]

theorem cutBelow_of_le {k : ℕ} (h : ℕ) (lbn nb : ℤ) (start : ℕ) (hk : start+g.nindir^h≤k) :
    CutBelow g k s s' h lbn nb start := by
  have hchild : s'.child g=s.child g := by
    unfold child
    rw [hc,hd]
  induction h generalizing lbn nb start with
  | zero => trivial
  | succ h ih =>
    intro _ i hi
    have hstep := span_le (h := h) hi
    have hpos : 0<g.nindir^h := Nat.pow_pos (nindir_pos g)
    refine ⟨?_,fun _ => ih _ _ _ (by omega)⟩
    rw [hchild,if_neg (by omega)]

end

end

end State

end Ext2fsX.Blocks
