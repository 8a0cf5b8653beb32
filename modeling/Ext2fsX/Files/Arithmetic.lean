import Ext2fsX.Files.Calls
import Mathlib.Tactic.IntervalCases

namespace Ext2fsX.Files

open Blocks (Geometry getlbns int32)

variable {x : ℤ}

theorem int64_eq (h0 : 0≤x) (h : x<2^63) : int64 x=x := by
  rw [int64,Int.bmod_def]
  omega

theorem uint64_eq (h0 : 0≤x) (h : x<2^64) : uint64 x=x.toNat := by
  rw [uint64,Int.emod_eq_of_lt h0 h]

theorem int32_le (h : 0≤x) : int32 x≤x := by
  rw [int32,Int.bmod_def]
  omega

variable (g : Geometry)

def limit : ℕ := 12+g.nindir+g.nindir^2+g.nindir^3

theorem limit_lt : limit g<2^31 := by
  have hk := g.log_le
  unfold limit Geometry.nindir
  interval_cases g.logBlockSize <;> decide

theorem limit_gt : 12<limit g := by
  have := Nat.two_pow_pos g.logBlockSize
  unfold limit Geometry.nindir
  omega

theorem blocksize_bounds : 1024≤g.blocksize ∧ g.blocksize≤4096 := by
  have hk := g.log_le
  unfold Geometry.blocksize
  interval_cases g.logBlockSize <;> decide

theorem maxfilesize_eq : g.maxfilesize=limit g*g.blocksize := rfl

/-- `ext2_getlbns` answers `EFBIG` exactly behind the last block. -/
theorem getlbns_isNone_iff (bn : ℕ) (h : 12≤bn) :
    (getlbns g.nindir bn).isNone=true ↔ limit g≤bn := by
  unfold getlbns limit
  dsimp only
  split
  · simp only [Option.isNone_some,Bool.false_eq_true,false_iff]
    omega
  split
  · simp only [Option.isNone_some,Bool.false_eq_true,false_iff]
    omega
  split
  · simp only [Option.isNone_some,Bool.false_eq_true,false_iff]
    omega
  · simp only [Option.isNone_none,true_iff]
    omega

variable {g}

theorem fragroundup_block (hfs : g.fsize=g.blocksize) {n : ℕ} (h0 : 0<n) (h : n≤g.blocksize) :
    g.fragroundup n=g.blocksize := by
  have hdiv : (n+g.blocksize-1)/g.blocksize=1 := by
    apply Nat.div_eq_of_lt_le <;> omega
  rw [Geometry.fragroundup,hfs,hdiv,Nat.one_mul]

theorem blocksize_pos (g : Geometry) : (0 : ℤ)<g.blocksize := by
  have := blocksize_bounds g
  omega

theorem div_lt_limit : x/g.blocksize<limit g ↔ x<g.maxfilesize := by
  rw [Int.ediv_lt_iff_lt_mul (blocksize_pos g),maxfilesize_eq,Nat.cast_mul]

theorem div_lt_limit_of_mod (h : x≤g.maxfilesize) (hmod : x%g.blocksize≠0) :
    x/g.blocksize<limit g := by
  refine div_lt_limit.mpr (lt_of_le_of_ne h fun he => hmod ?_)
  rw [he,maxfilesize_eq,Nat.cast_mul]
  exact Int.mul_emod_left _ _

theorem lbn_eq (h0 : 0≤x) (h : x≤g.maxfilesize) : int32 (x/g.blocksize)=x/g.blocksize := by
  have hpos := blocksize_pos g
  have hlimit := limit_lt g
  have hle : x/g.blocksize ≤ limit g := by
    apply Int.ediv_le_of_le_mul hpos
    exact_mod_cast h
  exact Blocks.int32_eq (Int.ediv_nonneg h0 hpos.le) (by omega)

theorem start_le (g : Geometry) {k : ℕ} (h : x/g.blocksize=k) : ((k*g.blocksize : ℕ) : ℤ)≤x := by
  have hmul := Int.ediv_mul_le x (blocksize_pos g).ne'
  rw [h] at hmul
  exact_mod_cast hmul

theorem blkoff_bounds (g : Geometry) (x : ℤ) : 0≤x%g.blocksize ∧ x%g.blocksize<g.blocksize :=
  ⟨Int.emod_nonneg _ (blocksize_pos g).ne',Int.emod_lt_of_pos _ (blocksize_pos g)⟩

end Ext2fsX.Files
