import Mathlib.Algebra.Ring.Nat
import Mathlib.Data.Int.Notation
import Mathlib.Tactic.ByContra

namespace Ext2fsX.Files

/-- The pages of a range, as long as `off` is a multiple of their size. -/
def pages (off len : ℕ) : List ℕ := List.range' (off/4096) ((len+4095)/4096)

def roundPage32 (x : ℕ) : ℕ := (x%2^32+4095)%2^32/4096*4096

/-- A request of `ext2_pageout`, with the size of the file and of its blocks. -/
structure Pageout where
  rdonly : Bool
  nocommit : Bool
  plOffset : ℕ
  fOffset : ℤ
  size : ℕ
  isize : ℕ
  bsize : ℕ
  bsize_pos : 0<bsize

/-- The pages committed or aborted, the bytes from `f_offset` on that were written, and the error.
-/
structure Disposed where
  pages : List ℕ
  written : ℕ
  error : ℕ

variable (bsize : ℕ) (alloc : ℕ → ℕ)

/-- `resid` and `error` behind the loop. `alloc` is the error for the block at an offset. -/
def blkallocLoop : ℕ → ℕ → ℕ → ℕ × ℕ
  | 0,_,resid => (resid,0)
  | fuel+1,off,resid =>
    if resid=0 then (0,0)
    else if alloc off≠0 then (resid,alloc off)
    else
      let xsize := min resid (bsize-off%bsize)
      blkallocLoop fuel (off+xsize) (resid-xsize)

/-- The blocks of `resid` bytes at `off` are all allocated. -/
def Allocated (off resid : ℕ) : Prop :=
  ∀ p,off ≤ p → p<off+resid → p=off ∨ p%bsize=0 → alloc p=0

/-- The first of them that cannot be allocated begins at `q`. -/
structure StopsAt (off resid q : ℕ) : Prop where
  le : off ≤ q
  lt : q<off+resid
  begins : q=off ∨ q%bsize=0
  fails : alloc q≠0
  before : Allocated bsize alloc off (q-off)

namespace Pageout

variable (r : Pageout)

/-- `xfer_size`, clipped to the file and rounded to the blocks of the device. -/
def transfer : ℕ :=
  let x := if r.isize<(r.fOffset.toNat+r.size)%2^64 then r.isize-r.fOffset.toNat else r.size
  if x%4096=0 then x else (x+511)%2^64/512*512

/-- `resid` before the loop: `xfer_size` as an `int`, where one that is negative ends the loop. -/
def resid : ℕ := if r.transfer%2^32<2^31 then r.transfer%2^32 else 0

def refused : Bool := r.rdonly || decide (r.fOffset<0 ∨ r.isize ≤ r.fOffset)

def abortRange (off len : ℕ) : List ℕ := if r.nocommit then [] else pages off len

def ext2Pageout (cluster : ℕ) : Disposed :=
  if r.rdonly then ⟨r.abortRange r.plOffset r.size,0,30⟩
  else if r.refused then ⟨r.abortRange r.plOffset r.size,0,22⟩
  else
    let (save,saveError) := blkallocLoop r.bsize alloc r.resid r.fOffset.toNat r.resid
    let xfer := roundPage32 (r.transfer-save)
    let out := r.abortRange r.plOffset xfer
    let written := if cluster=0 then xfer else 0
    if saveError=0 then ⟨out,written,cluster⟩
    else ⟨out++r.abortRange ((r.size+2^64-save)%2^64) (roundPage32 save),written,
      if cluster=0 then saveError else cluster⟩

def Right (d : Disposed) : Prop := r.nocommit=false →
  d.pages.Perm (pages r.plOffset r.size) ∧
    (d.error=0 → ∀ i < r.size,r.fOffset+i < r.isize → i<d.written)

/-- The pages of the transfer are those of the request. -/
def Whole : Prop := roundPage32 r.transfer/4096=(r.size+4095)/4096

/-- The pages before the block at `q` and those of the rest are as many as requested, and the abort
begins behind the first part. -/
def Parted (q : ℕ) : Prop :=
  let rest := r.fOffset.toNat+r.resid-q
  let before := roundPage32 (r.transfer-rest)/4096
  before+roundPage32 rest/4096=(r.size+4095)/4096 ∧
    (r.size+2^64-rest)%2^64/4096=r.plOffset/4096+before

end Pageout

/-- Two ranges of which the first begins at `p` are one from `p` on only if the second follows. -/
theorem perm_range_iff {p n a b c : ℕ} (hc : 0 < c) :
    (List.range' p a++List.range' b c).Perm (List.range' p n) ↔ a+c=n ∧ b=p+a := by
  refine ⟨fun h => ?_,?_⟩
  · have hlen : a+c=n := by simpa using h.length_eq
    have hnd := List.nodup_append.mp (h.nodup_iff.mpr List.nodup_range')
    have hin : ∀ x∈List.range' b c,x∈List.range' p n := fun x hx => h.subset (by simp [hx])
    have hfirst := hin b (by simp [hc])
    have hlast := hin (b+(c-1)) (by simp; omega)
    have hout : b∉List.range' p a := fun hb => hnd.2.2 b hb b (by simp [hc]) rfl
    simp only [List.mem_range'_1] at hfirst hlast hout
    omega
  · rintro ⟨rfl,rfl⟩
    rw [List.range'_append_1]

variable {bsize alloc} {off resid : ℕ}

theorem allocated_step {x : ℕ} (hb : 0<bsize) (h0 : 0 < resid) (hx : x=min resid (bsize-off%bsize)) :
    Allocated bsize alloc off resid ↔ alloc off=0 ∧ Allocated bsize alloc (off+x) (resid-x) := by
  have hmod := Nat.mod_lt off hb
  refine ⟨fun h => ⟨h off (Nat.le_refl _) (by omega) (.inl rfl),fun p hp hlt hs => ?_⟩,
    fun h p hp hlt hs => ?_⟩
  · refine h p (by omega) (by omega) (.inr (hs.elim (fun he => ?_) id))
    rw [he,← Nat.mod_add_mod,show off%bsize+x=bsize by omega,Nat.mod_self]
  by_cases he : p=off
  · exact he ▸ h.1
  have hz := hs.resolve_left he
  -- the next block begins `bsize-off%bsize` bytes on
  have hnext : off+(bsize-off%bsize) ≤ p := by
    by_contra hn
    obtain ⟨d,rfl⟩ := Nat.exists_eq_add_of_le hp
    rw [← Nat.mod_add_mod,Nat.mod_eq_of_lt (by omega)] at hz
    omega
  exact h.2 p (by omega) (by omega) (.inr hz)

theorem StopsAt.rest {x q : ℕ} (hb : 0<bsize) (ha : alloc off=0)
    (hx : x=min resid (bsize-off%bsize)) (h : StopsAt bsize alloc (off+x) (resid-x) q) :
    StopsAt bsize alloc off resid q := by
  have := h.le
  have := h.lt
  have hmod := Nat.mod_lt off hb
  have hbefore := h.before
  rw [Nat.sub_add_eq] at hbefore
  have hall : Allocated bsize alloc off (q-off) :=
    (allocated_step hb (by omega) (by omega)).mpr ⟨ha,hbefore⟩
  refine ⟨by omega,by omega,.inr (h.begins.elim (fun he => ?_) id),h.fails,hall⟩
  rw [he,← Nat.mod_add_mod,show off%bsize+x=bsize by omega,Nat.mod_self]

theorem StopsAt.unique {q q' : ℕ} (h : StopsAt bsize alloc off resid q)
    (h' : StopsAt bsize alloc off resid q') : q=q' := by
  rcases Nat.lt_trichotomy q q' with hlt | rfl | hlt
  · exact absurd (h'.before q h.le (by omega) h.begins) h.fails
  · rfl
  · exact absurd (h.before q' h'.le (by omega) h'.begins) h'.fails

variable (alloc) in
/-- The loop stops at the first block that fails, or not at all. -/
theorem blkallocLoop_spec (hb : 0<bsize) : ∀ (fuel off resid : ℕ),resid ≤ fuel →
    (∃ q,StopsAt bsize alloc off resid q ∧
      blkallocLoop bsize alloc fuel off resid=(off+resid-q,alloc q)) ∨
    Allocated bsize alloc off resid ∧ blkallocLoop bsize alloc fuel off resid=(0,0)
  | 0,off,resid,hf => .inr ⟨fun p hp hlt => by omega,by simp [blkallocLoop]; omega⟩
  | fuel+1,off,resid,hf => by
    rw [blkallocLoop]
    by_cases h0 : resid=0
    · rw [if_pos h0]
      exact .inr ⟨fun p hp hlt => by omega,rfl⟩
    rw [if_neg h0]
    by_cases ha : alloc off=0
    · rw [if_neg (by simp [ha])]
      have hx : 0 < min resid (bsize-off%bsize) := by have := Nat.mod_lt off hb; omega
      rcases blkallocLoop_spec hb fuel (off+min resid (bsize-off%bsize))
        (resid-min resid (bsize-off%bsize)) (by omega) with ⟨q,hq,he⟩ | ⟨hall,he⟩
      · refine .inl ⟨q,hq.rest hb ha rfl,he.trans ?_⟩
        rw [show off+min resid (bsize-off%bsize)+(resid-min resid (bsize-off%bsize))-q=
          off+resid-q by omega]
      · exact .inr ⟨(allocated_step hb (by omega) rfl).mpr ⟨ha,hall⟩,he⟩
    · rw [if_pos ha]
      exact .inl ⟨off,⟨Nat.le_refl _,by omega,.inl rfl,ha,fun p hp hlt => by omega⟩,by simp⟩

theorem pages_roundPage (p x : ℕ) :
    pages p (roundPage32 x)=List.range' (p/4096) (roundPage32 x/4096) := by
  rw [pages,show (roundPage32 x+4095)/4096=roundPage32 x/4096 by unfold roundPage32; omega]

namespace Pageout

variable {r : Pageout} {cluster : ℕ}

theorem right_refused (h : r.refused=true) : r.Right (r.ext2Pageout alloc cluster) := by
  intro hn
  by_cases hr : r.rdonly=true <;> simp [ext2Pageout,abortRange,h,hr,hn]

theorem right_allocated_iff (hn : r.nocommit=false) (h : r.refused=false)
    (hl : blkallocLoop r.bsize alloc r.resid r.fOffset.toNat r.resid=(0,0)) :
    r.Right (r.ext2Pageout alloc cluster) ↔ r.Whole := by
  have hrd : r.rdonly=false := by simp_all [refused]
  simp only [Right,ext2Pageout,abortRange,hrd,h,hl,hn,Bool.false_eq_true,if_false,if_true,
    pages_roundPage,Nat.sub_zero,true_imp_iff]
  refine ⟨fun hr => by simpa [pages,Whole] using hr.1.length_eq,fun hw => ?_⟩
  rw [pages,← hw]
  refine ⟨.refl _,fun hc i hi _ => ?_⟩
  rw [if_pos hc]
  unfold Whole at hw
  omega

theorem right_failed_iff {q : ℕ} (hn : r.nocommit=false) (h : r.refused=false)
    (hq : StopsAt r.bsize alloc r.fOffset.toNat r.resid q)
    (hl : blkallocLoop r.bsize alloc r.resid r.fOffset.toNat r.resid=
      (r.fOffset.toNat+r.resid-q,alloc q)) :
    r.Right (r.ext2Pageout alloc cluster) ↔ r.Parted q := by
  have hrd : r.rdonly=false := by simp_all [refused]
  have herr : (if cluster=0 then alloc q else cluster)≠0 := by split <;> simp_all [hq.fails]
  have hrest : 0 < roundPage32 (r.fOffset.toNat+r.resid-q)/4096 := by
    have := hq.le
    have := hq.lt
    have : r.resid<2^31 := by unfold resid; split <;> omega
    unfold roundPage32
    omega
  simp only [Right,ext2Pageout,abortRange,hrd,h,hl,hn,Bool.false_eq_true,if_false,if_neg hq.fails,
    herr,pages_roundPage,true_imp_iff,false_imp_iff,and_true]
  rw [pages,perm_range_iff hrest,Parted]

end Pageout

/-- Every page is disposed of once, and a success has written all, exactly if the ranges of the two
parts are right. -/
theorem pageout_right_iff (r : Pageout) (alloc : ℕ → ℕ) (cluster : ℕ) :
    r.Right (r.ext2Pageout alloc cluster) ↔ (r.nocommit=false → r.refused=false →
      (Allocated r.bsize alloc r.fOffset.toNat r.resid → r.Whole) ∧
        ∀ q,StopsAt r.bsize alloc r.fOffset.toNat r.resid q → r.Parted q) := by
  cases hn : r.nocommit with
  | true => simp [Pageout.Right,hn]
  | false =>
    cases h : r.refused with
    | true => simp [Pageout.right_refused h]
    | false =>
      simp only [true_imp_iff]
      rcases blkallocLoop_spec alloc r.bsize_pos r.resid r.fOffset.toNat r.resid (Nat.le_refl _) with
        ⟨q,hq,hl⟩ | ⟨hall,hl⟩
      · rw [Pageout.right_failed_iff hn h hq hl]
        exact ⟨fun hp => ⟨fun hall => absurd (hall q hq.le hq.lt hq.begins) hq.fails,
          fun q' hq' => hq.unique hq' ▸ hp⟩,fun hp => hp.2 q hq⟩
      · rw [Pageout.right_allocated_iff hn h hl]
        exact ⟨fun hw => ⟨fun _ => hw,fun q hq => absurd (hall q hq.le hq.lt hq.begins) hq.fails⟩,
          fun hw => hw.1 hall⟩

def twoPages (plOffset isize : ℕ) : Pageout :=
  ⟨false,false,plOffset,0,8192,isize,1024,Nat.two_pow_pos 10⟩

/-- The page of a failing block is disposed of twice; the abort ignores the offset in the upl; a page
behind the end of the file is not disposed of. -/
theorem pageout_strays :
    ((twoPages 0 8192).ext2Pageout (fun q => if q=1024 then 28 else 0) 0).pages=[0,0,1] ∧
      ((twoPages 8192 8192).ext2Pageout (fun _ => 28) 0).pages=[0,1] ∧
      ((twoPages 0 4096).ext2Pageout (fun _ => 0) 0).pages=[0] ∧
      ¬∀ (r : Pageout) (alloc : ℕ → ℕ) (cluster : ℕ),r.Right (r.ext2Pageout alloc cluster) := by
  refine ⟨by decide +kernel,by decide +kernel,by decide +kernel,fun h => ?_⟩
  have hperm := (h (twoPages 0 4096) (fun _ => 0) 0 rfl).1
  revert hperm
  decide +kernel

end Ext2fsX.Files
