import Ext2fsX.Reuse.TwoRuns
import Mathlib.Tactic.IntervalCases

namespace Ext2fsX.Reuse

variable (env : Env) (c : Contents)

/-- Counted from `i_db[0]`. A negative one lies before the array. -/
def clearedIndices : Set ℤ := {i | usedBlocks env c ≤ i ∧ i<12}

def blocksOf : ℕ :=
  (c.size.toNat+env.blocksize.toNat-1)/env.blocksize.toNat

/-- The loop writes to unused direct pointers only, and clears them all. -/
structure ClearsUnused : Prop where
  inside : ∀ i∈clearedIndices env c,(blocksOf env c : ℤ) ≤ i ∧ i<12
  block : ∀ i : Fin 15,(clearUnused env c).block.get i=
    if blocksOf env c ≤ i.val ∧ i.val<12 then 0 else c.block.get i
  rest : { clearUnused env c with block := c.block }=c

/-- The size can be rounded up to blocks, and their number as an `int` is itself or at least 12. -/
def Loadable : Prop :=
  c.size.toNat+env.blocksize.toNat≤2^64 ∧
    (blocksOf env c<2^31 ∨ 12≤blocksOf env c%2^32 ∧ blocksOf env c%2^32<2^31)

theorem usedBlocks_eq (hpos : 0<env.blocksize.toNat) : usedBlocks env c=
      (((c.size.toNat+env.blocksize.toNat-1)%2^64/env.blocksize.toNat : ℕ) : ℤ).bmod 4294967296 := by
  have hsum : (c.size+env.blocksize-1).toNat=(c.size.toNat+env.blocksize.toNat-1)%2^64 := by
    simp only [UInt64.toNat_sub,UInt64.toNat_add,UInt64.toNat_one]
    omega
  unfold usedBlocks
  rw [UInt64.toNat_div,hsum]

theorem isReg_of_isDir {mode : UInt16} (h : isDir mode=true) : isReg mode=false := by
  rw [isDir,beq_iff_eq] at h
  rw [isReg,h]
  decide

variable {env : Env} {k : ℕ} (hk : k≤2) (hsize : env.blocksize.toNat=1024*2^k)

include hk hsize

theorem usedBlocks_of_loadable {c : Contents} (h : Loadable env c) (i : ℤ) (hi : i<12) :
    usedBlocks env c ≤ i ↔ (blocksOf env c : ℤ) ≤ i := by
  obtain ⟨hsum,hcount⟩ := h
  rw [usedBlocks_eq env c (by rw [hsize]; positivity),Int.bmod_def]
  unfold blocksOf at hcount ⊢
  interval_cases k <;> rw [hsize] at hsum hcount ⊢ <;> omega

theorem loadable_of_inside {c : Contents}
    (h : usedBlocks env c<12 → (blocksOf env c : ℤ)≤usedBlocks env c) : Loadable env c := by
  have hlt := c.size.toNat_lt
  rw [usedBlocks_eq env c (by rw [hsize]; positivity),Int.bmod_def] at h
  unfold Loadable blocksOf at *
  interval_cases k <;> rw [hsize] at h ⊢ <;> omega

/-- The unused direct pointers, and nothing else, are cleared for every directory and for exactly
the regular files whose size is `Loadable`. -/
theorem vget_clears_iff (ei : Slot) :
    (isDir (ei2i env ei).mode=true → ClearsUnused env (ei2i env ei).contents) ∧
    (ClearsUnused env (ei2i env ei).contents ↔ Loadable env (ei2i env ei).contents) := by
  have hiff : ClearsUnused env (ei2i env ei).contents ↔ Loadable env (ei2i env ei).contents := by
    constructor
    · intro h
      apply loadable_of_inside hk hsize
      exact fun hlt => (h.inside _ ⟨le_rfl,hlt⟩).1
    · intro h
      refine ⟨?_,?_,rfl⟩
      · rintro i ⟨hle,hlt⟩
        exact ⟨(usedBlocks_of_loadable hk hsize h i hlt).mp hle,hlt⟩
      · intro i
        have hget : (clearUnused env (ei2i env ei).contents).block.get i=_ :=
          Vector.getElem_ofFn i.isLt
        refine hget.trans (if_congr ?_ rfl rfl)
        apply and_congr_left
        intro hlt
        have hcase := usedBlocks_of_loadable hk hsize h i.val (by exact_mod_cast hlt)
        exact hcase.trans Int.ofNat_le
  refine ⟨fun hdir => hiff.mpr ?_,hiff⟩
  -- the size of a directory has 32 bits
  have hlt : (ei2i env ei).contents.size.toNat<2^32 := by
    have hcontents : (ei2i env ei).contents.size=ei.size.toUInt64 :=
      if_neg (ne_true_of_eq_false (isReg_of_isDir hdir))
    rw [hcontents,UInt32.toNat_toUInt64]
    exact ei.size.toNat_lt
  unfold Loadable blocksOf
  interval_cases k <;> rw [hsize] <;> omega

omit hk hsize

def sizedSlot (low high : UInt32) : Slot :=
  { freeSlot 0 0 high with mode := 0x81A4, linksCount := 1, size := low }

theorem vget_clears_byte : ClearsUnused sampleEnv (ei2i sampleEnv (sizedSlot 1 0)).contents :=
  (@vget_clears_iff sampleEnv 0 (by decide) (by decide) (sizedSlot 1 0)).2.mpr
    ⟨by decide,.inl (by decide)⟩

/-- A file of two terabytes: the loop starts before the array. -/
theorem vget_clears_outside : isReg (ei2i sampleEnv (sizedSlot 0 512)).mode=true ∧
    (ei2i sampleEnv (sizedSlot 0 512)).contents.size=2199023255552 ∧
    usedBlocks sampleEnv (ei2i sampleEnv (sizedSlot 0 512)).contents= -2147483648 ∧
    -1∈clearedIndices sampleEnv (ei2i sampleEnv (sizedSlot 0 512)).contents := by
  have hused : usedBlocks sampleEnv (ei2i sampleEnv (sizedSlot 0 512)).contents= -2147483648 := by
    decide
  refine ⟨by decide,by decide,hused,?_,by decide⟩
  decide

end Ext2fsX.Reuse
