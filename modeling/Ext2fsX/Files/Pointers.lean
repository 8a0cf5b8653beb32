import Ext2fsX.Files.Rounds
import Ext2fsX.Framework.Machine
import Ext2fsX.Reuse.Load

namespace Ext2fsX.Files

open Framework
open Blocks (Geometry getlbns int32 int32_eq)

variable {g : Geometry} {f f' : File} {n m : ℕ}

/-- The direct pointers that are set belong to the first `n` bytes. -/
def Within (g : Geometry) (n : ℕ) (f : File) : Prop := ∀ k<12,f.db k≠0 → k*g.blocksize<n

def Covered (g : Geometry) (f : File) : Prop := Within g f.size f

def Fewer (f' f : File) : Prop := ∀ k,f'.db k≠0 → f.db k≠0

theorem Within.mono (h : Within g n f) (hf : Fewer f' f) (hle : n ≤ m) : Within g m f' :=
  fun k hk hne => (h k hk (hf k hne)).trans_le hle

theorem Fewer.refl (f : File) : Fewer f f := fun _ h => h

theorem within_of_large (h : g.maxfilesize ≤ n) : Within g n f := by
  intro k hk _
  have hpos : 0<g.blocksize := by have := blocksize_bounds g; omega
  calc k*g.blocksize < limit g*g.blocksize := Nat.mul_lt_mul_of_pos_right (hk.trans (limit_gt g)) hpos
    _ ≤ n := h

/-- No block, or one behind the direct blocks, or its pointer is not set or belongs to the file. -/
def Fits (g : Geometry) (f : File) (bn : ℤ) : Prop :=
  ∀ k : ℕ,bn=k → k<12 → f.db k≠0 → k*g.blocksize<f.size

theorem Covered.fits (h : Covered g f) (bn : ℤ) : Fits g f bn := fun k _ hk hne => h k hk hne

variable {bn : ℤ} {size : ℕ}

/-- Where fragments are blocks there is no panic for a block that fits, and only its pointer is set,
on success. -/
theorem balloc2_ok (hfs : g.fsize=g.blocksize) (nobuff : Bool) (a : Balloc)
    (h : Fits g f bn) (h0 : 0 < size) (hle : size ≤ g.blocksize) :
    ∃ f' e,f.balloc2 g nobuff a bn size=.ok (f',e) ∧ f'.size=f.size ∧
      (∀ k,f'.db k≠0 → f.db k≠0 ∨ bn=k ∧ e=none) := by
  generalize hr : f.balloc2 g nobuff a bn size=r
  cases balloc2_inv hr with
  | efbig | indirect | present | enospc => exact ⟨f,_,rfl,rfl,fun k hk => .inl hk⟩
  | granted k hk =>
    refine ⟨_,none,rfl,rfl,fun q hne => ?_⟩
    by_cases he : q=k
    · exact .inr ⟨he ▸ hk,rfl⟩
    · dsimp only at hne
      rw [Function.update_of_ne he] at hne
      exact .inl hne
  | wrong k hk hlt hset hwrong =>
    have hin := h k hk hlt hset
    refine absurd ?_ hwrong
    by_cases hmod : f.size%g.blocksize=0
    · left
      -- the size is a multiple of the block size, and lies behind the start of the block
      have hdvd := Nat.div_mul_cancel (Nat.dvd_of_mod_eq_zero hmod)
      have hlt : k<f.size/g.blocksize := by
        by_contra hge
        have := Nat.mul_le_mul_right g.blocksize (not_lt.mp hge)
        omega
      calc (k+1)*g.blocksize ≤ f.size/g.blocksize*g.blocksize := Nat.mul_le_mul_right _ hlt
        _ = f.size := hdvd
    · right
      rw [fragroundup_block hfs h0 hle,fragroundup_block hfs (Nat.pos_of_ne_zero hmod)
        (Nat.mod_lt _ (h0.trans_le hle)).le]

def Balloc.Succeeds (a : Balloc) : Prop := a.grant≠0 ∧ a.read=true ∧ a.indirect=none

theorem balloc2_succeeds {nobuff : Bool} {a : Balloc} {e : Option Error}
    (ha : a.Succeeds) (h0 : 0≤bn) (hlt : bn<limit g) (h : f.balloc2 g nobuff a bn size=.ok (f',e)) : e=none := by
  cases balloc2_inv h with
  | efbig hout => omega
  | indirect => exact ha.2.2
  | present => exact if_neg (by simp [ha.2.1])
  | enospc _ _ _ _ hfull => exact absurd hfull ha.1
  | granted => rfl

inductive Truncated (g : Geometry) (f : File) (a : Truncation) (length : ℤ) (f' : File) : Prop
  | refused : length<0 ∨ g.maxfilesize<length → f'=f → Truncated g f a length f'
  | same : f.size=length → f'=f → Truncated g f a length f'
  | failed : ¬a.balloc.Succeeds → 0≤length → f'.size=f.size → Fewer f' f → Truncated g f a length f'
  | extended : f.size<length → length ≤ g.maxfilesize → f'.size=length →
      (∀ k,f'.db k≠0 → f.db k≠0 ∨ (k*g.blocksize : ℕ)<length) → Truncated g f a length f'
  | shortened : 0≤length → length<f.size → f'.size=length → Within g length.toNat f' →
      Truncated g f a length f'

theorem shorten_within {length : ℤ} (h0 : 0≤length) :
    Within g length.toNat (f.shorten g length) := by
  intro k hk hne
  by_contra hge
  apply hne
  refine if_pos ⟨?_,hk⟩
  have hpos := blocksize_pos g
  have hq : (length+g.blocksize-1)/g.blocksize < k+1 := by
    apply Int.ediv_lt_of_lt_mul hpos
    rw [add_mul,one_mul]
    omega
  have hq0 : 0 ≤ (length+g.blocksize-1)/g.blocksize := Int.ediv_nonneg (by omega) hpos.le
  rw [int32,Int.bmod_def]
  omega

theorem truncate_ok (hfs : g.fsize=g.blocksize) (hsize : f.size<2^63) (a : Truncation) (length : ℤ)
    (h : f.size<length → Covered g f) :
    ∃ f' e,f.truncate g a length=.ok (f',e) ∧ Truncated g f a length f' := by
  have hpos := blocksize_pos g
  unfold File.truncate
  split
  case isTrue hrange => exact ⟨f,_,rfl,.refused hrange rfl⟩
  case isFalse hrange =>
  obtain ⟨h0,hmax⟩ := not_or.mp hrange
  rw [not_lt] at h0 hmax
  split
  case isTrue hsame => exact ⟨f,_,rfl,.same hsame rfl⟩
  case isFalse hdiff =>
  rw [int64_eq (by omega) (by exact_mod_cast hsize)]
  split
  case isTrue hlong =>
    have hoff := blkoff_bounds g (length-1)
    have hlbn := lbn_eq (g := g) (x := length-1) (by omega) (by omega)
    obtain ⟨f1,e,hr,hsz,hdb⟩ := balloc2_ok hfs false a.balloc
      ((h hlong).fits (int32 ((length-1)/g.blocksize)))
      (show 0<((length-1)%g.blocksize+1).toNat by omega) (by omega)
    rw [hr]
    cases e with
    | some e =>
      refine ⟨f1,_,rfl,.failed ?_ h0 hsz fun k hk => (hdb k hk).resolve_right nofun⟩
      intro hs
      cases balloc2_succeeds hs (by rw [hlbn]; exact Int.ediv_nonneg (by omega) hpos.le)
        (by rw [hlbn]; exact div_lt_limit.mpr (by omega)) hr
    | none =>
      refine ⟨_,_,rfl,.extended hlong hmax (Int.toNat_of_nonneg h0) ?_⟩
      intro k hk
      refine (hdb k hk).imp_right fun hbn => ?_
      have := start_le g (hlbn.symm.trans hbn.1)
      omega
  case isFalse hshort =>
    split
    · exact ⟨_,_,rfl,.shortened h0 (by omega) (Int.toNat_of_nonneg h0) (shorten_within h0)⟩
    case isFalse hmod =>
    have hoff := blkoff_bounds g length
    have hlbn := lbn_eq h0 hmax
    have hfits : Fits g f (int32 (length/g.blocksize)) := by
      intro k hk _ _
      have := start_le g (hlbn.symm.trans hk)
      omega
    obtain ⟨f1,e,hr,hsz,hdb⟩ := balloc2_ok hfs false a.balloc hfits
      (show 0<(length%g.blocksize).toNat by omega) (by omega)
    rw [hr]
    cases e with
    | some e =>
      refine ⟨f1,_,rfl,.failed ?_ h0 hsz fun k hk => (hdb k hk).resolve_right nofun⟩
      intro hs
      cases balloc2_succeeds hs (by rw [hlbn]; exact Int.ediv_nonneg h0 hpos.le)
        (by rw [hlbn]; exact div_lt_limit_of_mod hmax hmod) hr
    | none =>
      exact ⟨_,_,rfl,.shortened h0 (by omega) (Int.toNat_of_nonneg h0) (shorten_within h0)⟩

namespace Truncated

variable {a : Truncation} {length : ℤ}

section

variable (h : Truncated g f a length f')

include h

theorem covered (hc : Covered g f) : Covered g f' := by
  cases h with
  | refused _ he => exact he ▸ hc
  | same _ he => exact he ▸ hc
  | failed _ _ hsz hfew => exact hc.mono hfew hsz.ge
  | extended hlt _ hsz hdb =>
    intro k hk hne
    rcases hdb k hne with hold | hnew
    · have := hc k hk hold
      omega
    · omega
  | shortened h0 _ hsz hw => exact hw.mono (.refl f') (by omega)

theorem within (hc : Covered g f) (h0 : 0≤length)
    (ha : a.balloc.Succeeds) : Within g length.toNat f' := by
  cases h with
  | refused hrange he =>
    apply within_of_large
    omega
  | same hsame he =>
    subst he
    exact hc.mono (.refl f') (by omega)
  | failed hn => exact absurd ha hn
  | extended hlt hle hsz hdb =>
    intro k hk hne
    rcases hdb k hne with hold | hnew
    · have := hc k hk hold
      omega
    · omega
  | shortened _ _ _ hw => exact hw

theorem mends (h0 : 0≤length) (hlt : length<f.size) (ha : a.balloc.Succeeds) : Covered g f' := by
  cases h with
  | refused hrange he =>
    subst he
    apply within_of_large
    omega
  | failed hn => exact absurd ha hn
  | shortened _ _ hsz hw => exact hw.mono (.refl f') (by omega)
  | _ => omega

end

end Truncated

theorem start_le_of_int32 {x : ℤ} (h0 : 0≤x) {k : ℕ} (h : int32 (x/g.blocksize)=k) :
    ((k*g.blocksize : ℕ) : ℤ)≤x := by
  have hpos := blocksize_pos g
  have hle : (k : ℤ)≤x/g.blocksize := h ▸ int32_le (Int.ediv_nonneg h0 hpos.le)
  have hmul := Int.mul_le_of_le_ediv hpos hle
  exact_mod_cast hmul

theorem Covered.written (h : Covered g f) {x : ℤ}
    (hdb : ∀ k,f'.db k≠0 → f.db k≠0 ∨ bn=k) (hbn : ∀ k : ℕ,bn=k → ((k*g.blocksize : ℕ) : ℤ)≤x)
    (hx : x < size) (hle : f.size ≤ size) : Covered g { f' with size := size } := by
  intro k hk hne
  rcases hdb k hne with hold | hnew
  · exact (h k hk hold).trans_le hle
  · have := hbn k hnew
    change k*g.blocksize < size
    omega

theorem allocLoop_covered (hfs : g.fsize=g.blocksize) (ans : ℕ → Balloc) (n k : ℕ) {l : Round}
    (h0 : 0≤l.localOffset) (hlt : l.localOffset+l.rsd<2^63) (hc : Covered g l.file) :
    ∃ l',allocLoop g ans n k l=.ok l' ∧ Covered g l'.file := by
  induction n generalizing k l with
  | zero => exact ⟨l,rfl,hc⟩
  | succ n ih =>
    by_cases hpos : 0<l.rsd
    · obtain ⟨hx0,hxr,hend⟩ := Round.xfer_bounds g hpos
      have hoff := blkoff_bounds g l.localOffset
      obtain ⟨f',e',hok,hsize,hdb⟩ := balloc2_ok hfs true (ans k)
        (hc.fits (int32 (l.localOffset/g.blocksize)))
        (show 0<(l.localOffset%g.blocksize+l.xfer g).toNat by omega) (by omega)
      have hcall : l.call g (ans k)=.ok (f',e') := hok
      rcases allocLoop_cases h0 hlt hpos ans n k with ⟨x,hb,-⟩ | ⟨f1,e,hb,he⟩ | ⟨f1,hb,he⟩
      · rw [hcall] at hb
        cases hb
      · rw [hcall] at hb
        cases hb
        exact ⟨_,he,hc.mono (fun k hk => (hdb k hk).resolve_right nofun) hsize.ge⟩
      · rw [hcall] at hb
        cases hb
        rw [he]
        refine ih (k+1) (add_nonneg h0 hx0.le) ?_ (hc.written (x := l.localOffset)
          (fun k hk => (hdb k hk).imp_right And.left) (fun k => start_le_of_int32 h0) ?_ ?_)
        · change l.localOffset+l.xfer g+(l.rsd-l.xfer g) < 2^63
          omega
        · omega
        · omega
    · rw [allocLoop,if_pos (not_lt.mp hpos)]
      exact ⟨l,rfl,hc⟩

structure Uio.Valid (u : Uio) : Prop where
  offset : 0≤u.offset
  resid : 0<u.resid
  sum : u.offset+u.resid<2^63

section

variable (hfs : g.fsize=g.blocksize)

include hfs

theorem settle_ok {ans : Answers} {io : Ioflag} {osize offset : ℤ}
    (hc : Covered g f) (hsize : f.size<2^63) (h0 : 0≤osize) (hle : osize≤f.size) (hlt : offset<2^63)
    (hall : ans.cluster=none → osize<offset → f.size ≤ offset) :
    ∃ f',settle g ans io osize offset f=.ok f' ∧ f'.size<2^63 ∧ osize≤f'.size ∧
      ((ans.cluster.isSome=true → io.unit=false → ans.cut.balloc.Succeeds) →
        Covered g f' ∨ ans.cluster.isSome=true ∧ io.unit=true ∧ osize<f'.size) := by
  unfold settle
  split
  case isFalse => exact ⟨f,rfl,hsize,hle,fun _ => .inl hc⟩
  case isTrue hgrown =>
  have hu : uint64 offset=offset.toNat := uint64_eq (by omega) (by omega)
  rw [hu]
  have hsmall : offset.toNat<2^63 := by omega
  have hgrown' : osize<offset.toNat := by omega
  by_cases hcluster : ans.cluster.isSome=true ∧ io.unit=false
  · rw [if_pos hcluster]
    obtain ⟨f',e,hr,ht⟩ := truncate_ok hfs hsize ans.cut offset fun _ => hc
    rw [hr]
    refine ⟨_,rfl,hsmall,hgrown'.le,fun hcut => .inl ?_⟩
    exact ht.within hc (by omega) (hcut hcluster.1 hcluster.2)
  rw [if_neg hcluster]
  refine ⟨_,rfl,hsmall,hgrown'.le,fun _ => ?_⟩
  cases hs : ans.cluster with
  | none =>
    left
    have hle : f.size ≤ offset.toNat := by
      have := hall hs hgrown
      omega
    exact hc.mono (.refl f) hle
  | some x =>
    rw [hs] at hcluster
    exact .inr ⟨rfl,by simpa using hcluster,hgrown'⟩

/-- Only a write that fails with `IO_UNIT` may leave pointers behind the end of the file. -/
theorem writeCluster_ok {ans : Answers} {io : Ioflag} {u : Uio}
    (hc : Covered g f) (hsize : f.size<2^63) (hu : u.Valid) :
    ∃ b,writeCluster g ans io f u=.ok b ∧ b.file.size<2^63 ∧ f.size ≤ b.file.size ∧
      ((ans.cluster.isSome=true → io.unit=false → ans.cut.balloc.Succeeds) →
        Covered g b.file ∨ b.error.isSome=true ∧ ans.cluster.isSome=true ∧ io.unit=true ∧
          f.size<b.file.size) := by
  have hvalid := hu.offset
  have hsum := hu.sum
  have h32 : int32 u.resid ≤ u.resid := int32_le hu.resid.le
  have hosize : int64 f.size=f.size := int64_eq (by omega) (by exact_mod_cast hsize)
  obtain ⟨l,hl,hcl⟩ := allocLoop_covered hfs ans.balloc (int32 u.resid).toNat 0
    (l := ⟨f,int32 u.resid,u.offset,none,[]⟩) hvalid (by dsimp only; omega) hc
  obtain ⟨n,-,hn⟩ := alloc_spec hvalid (by omega) hl
  have hbounds := hn.bounds
  have hsaved := hn.saved
  have hlsize := hn.size
  have hresid := hu.resid
  obtain ⟨hmoved,hmoved',hall⟩ := ans.moved_bounds (u.resid-l.saved) (by omega)
  generalize hmv : ans.moved (u.resid-l.saved)=moved at *
  have hoffset : int64 (u.offset+moved)=u.offset+moved := int64_eq (by omega) (by omega)
  have hgrow : ans.cluster=none → f.size<u.offset+moved → l.file.size ≤ u.offset+moved := by
    intro hnone hgrown
    have := hall hnone
    rw [hlsize]
    split <;> omega
  have hlsize' : l.file.size<2^63 := by
    rw [hlsize]
    split <;> omega
  have hge : (f.size : ℤ)≤l.file.size := by
    rw [hlsize]
    split <;> omega
  obtain ⟨f',hr,hlt,hle,hcov⟩ := settle_ok hfs hcl hlsize' (Int.natCast_nonneg _) hge (by omega) hgrow
  have hrun : writeCluster g ans io f u=.ok ⟨f',⟨u.offset+moved,u.resid-l.saved-moved+l.saved⟩,
      (ans.cluster.map Prod.snd).or l.error,moved,l.calls⟩ := by
    unfold writeCluster
    dsimp only
    rw [hl]
    dsimp only
    rw [hosize,hmv,hoffset,hr]
  refine ⟨_,hrun,hlt,by exact_mod_cast hle,fun hcut => (hcov hcut).imp_right ?_⟩
  rintro ⟨hs,hunit,hgrown⟩
  obtain ⟨x,hx⟩ := Option.isSome_iff_exists.mp hs
  refine ⟨?_,hs,hunit,by exact_mod_cast hgrown⟩
  rw [hx]
  rfl

theorem writeBuffers_ok (ans : Answers) (n k : ℕ) {b : Branch}
    (hc : Covered g b.file) (hsize : b.file.size<2^63) (h0 : 0≤b.uio.offset)
    (hsum : b.uio.offset+b.uio.resid<2^63) :
    ∃ b',writeBuffers g ans n k b=.ok b' ∧ Covered g b'.file ∧ b'.file.size<2^63 := by
  induction n generalizing k b with
  | zero => exact ⟨b,rfl,hc,hsize⟩
  | succ n ih =>
    rw [writeBuffers]
    split
    · exact ⟨b,rfl,hc,hsize⟩
    case isFalse hpos =>
    dsimp only
    rw [not_le] at hpos
    obtain ⟨hx0,hxr,hend⟩ := xfersize_bounds g b.uio.offset hpos
    have hoff := blkoff_bounds g b.uio.offset
    obtain ⟨f',e,hok,hsz,hdb⟩ := balloc2_ok hfs false (ans.balloc k)
      (hc.fits (int32 (b.uio.offset/g.blocksize)))
      (show 0<(b.uio.offset%g.blocksize+xfersize g b.uio.offset b.uio.resid).toNat by omega)
      (by omega)
    rw [hok]
    cases e with
    | some e =>
      exact ⟨_,rfl,hc.mono (fun k hk => (hdb k hk).resolve_right nofun) hsz.ge,by
        change f'.size < 2^63
        omega⟩
    | none =>
      dsimp only
      rw [uint64_eq (by omega) (by omega)]
      have hc' : Covered g { f' with
          size := max f'.size (b.uio.offset+xfersize g b.uio.offset b.uio.resid).toNat } := by
        refine hc.written (x := b.uio.offset) (fun k hk => (hdb k hk).imp_right And.left)
          (fun k => start_le_of_int32 h0) ?_ ?_
        · omega
        · omega
      have hsize' : max f'.size (b.uio.offset+xfersize g b.uio.offset b.uio.resid).toNat<2^63 := by
        omega
      split
      · exact ⟨_,rfl,hc',hsize'⟩
      case isFalse hsome =>
      split
      · exact ⟨_,rfl,hc',hsize'⟩
      have hnext : int64 (b.uio.offset+min (xfersize g b.uio.offset b.uio.resid) (ans.avail k))=
          b.uio.offset+min (xfersize g b.uio.offset b.uio.resid) (ans.avail k) :=
        int64_eq (by omega) (by omega)
      apply ih (k+1) hc' hsize'
      · dsimp only
        omega
      · dsimp only
        omega

end

/-- If `cluster_write` fails, the block that the file is then cut in can be had. -/
structure CanUndo (ans : Answers) (io : Ioflag) : Prop where
  cut : ans.cluster.isSome=true → io.unit=false → ans.cut.balloc.Succeeds
  undo : ans.cluster.isSome=true → io.unit=true → ans.undo.balloc.Succeeds

structure CarefulWrite (ans : Answers) (io : Ioflag) (u : Uio) : Prop extends CanUndo ans io where
  valid : u.Valid

theorem writeBody_ok (hfs : g.fsize=g.blocksize) (v : Vnode) (ans : Answers) (io : Ioflag) {u : Uio}
    (hc : Covered g f) (hsize : f.size<2^63) (hu : u.Valid) :
    ∃ b,writeBody g v ans io f u=.ok b ∧ (CanUndo ans io → Covered g b.file) := by
  have hosize : int64 f.size=f.size := int64_eq (by omega) (by exact_mod_cast hsize)
  have hbranch : ∃ b,(if v.ubc then writeCluster g ans io f u
      else writeBuffers g ans u.resid.toNat 0 ⟨f,u,none,0,[]⟩)=.ok b ∧ b.file.size<2^63 ∧
      (b.file.size<f.size → Covered g b.file) ∧ (CanUndo ans io → Covered g b.file ∨
        b.error.isSome=true ∧ ans.cluster.isSome=true ∧ io.unit=true ∧ f.size<b.file.size) := by
    split
    · obtain ⟨b,hb,hlt,hge,hcov⟩ := writeCluster_ok hfs hc hsize hu
      exact ⟨b,hb,hlt,fun h => absurd hge (not_le.mpr h),fun h => hcov h.cut⟩
    · obtain ⟨b,hb,hcov,hlt⟩ := writeBuffers_ok hfs ans u.resid.toNat 0 (b := ⟨f,u,none,0,[]⟩) hc hsize
        hu.offset hu.sum
      exact ⟨b,hb,hlt,fun _ => hcov,fun _ => .inl hcov⟩
  obtain ⟨b,hb,hlt,hshort,hcov⟩ := hbranch
  unfold writeBody
  rw [hb]
  dsimp only
  split
  · split
    case isTrue hunit =>
      rw [hosize]
      obtain ⟨f',e,hr,ht⟩ := truncate_ok hfs hlt ans.undo f.size (by exact_mod_cast hshort)
      rw [hr]
      refine ⟨_,rfl,fun hcan => ?_⟩
      rcases hcov hcan with hcov | ⟨-,hs,-,hgrown⟩
      · exact ht.covered hcov
      · exact ht.mends (by omega) (by exact_mod_cast hgrown) (hcan.undo hs hunit)
    case isFalse hunit =>
      exact ⟨_,rfl,fun hcan => (hcov hcan).resolve_right fun h => hunit h.2.2.1⟩
  case isFalse hnone =>
    have hcov (hcan : CanUndo ans io) := (hcov hcan).resolve_right fun h => hnone h.1
    split
    · exact ⟨_,rfl,hcov⟩
    · exact ⟨_,rfl,hcov⟩

end Ext2fsX.Files
