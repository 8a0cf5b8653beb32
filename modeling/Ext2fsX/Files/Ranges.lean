import Ext2fsX.Files.Sizes

namespace Ext2fsX.Files

open Blocks (Geometry getlbns int32 int32_lt kilo)

/-- It fails and touches no block, or every block is the one of its offset, the size stays in range
and the request has moved on by the bytes stored, or by none where `IO_UNIT` has undone it. -/
def Sound (g : Geometry) (io : Ioflag) (u : Uio) (b : Branch) : Prop :=
  b.error.isSome=true ∧ b.calls=[] ∧ b.stored=0 ∨
    (∀ c∈b.calls,c.2=c.1/g.blocksize) ∧ b.file.size≤g.maxfilesize ∧
      ∃ n,(n=b.stored ∨ n=0 ∧ b.error.isSome=true ∧ io.unit=true) ∧
        b.uio=⟨u.offset+n,u.resid-n⟩

/-- Refused, or the first block has no number in range, or it begins in range, in a file in range,
with a length that fits an `int` or no `IO_UNIT`. -/
def InRange (g : Geometry) (v : Vnode) (io : Ioflag) (f : File) (u : Uio) : Prop :=
  v.appendOnly=true ∧ uint64 u.offset≠f.size ∨
  (int32 (u.offset/g.blocksize)<0 ∨ limit g ≤ int32 (u.offset/g.blocksize)) ∧
    (v.ubc=true → u.resid<2^31) ∨
  u.offset<g.maxfilesize ∧ f.size≤g.maxfilesize ∧
    (u.resid<2^31 ∨ io.unit=false ∧ (v.ubc=true → u.offset+u.resid≤g.maxfilesize))

variable {g : Geometry} {v : Vnode} {f f' : File} {ans : Answers} {io : Ioflag} {u : Uio}
  {b b' c : Branch} {n : Option ℕ}

theorem balloc2_efbig {nobuff : Bool} {a : Balloc} {bn : ℤ} {size : ℕ} (h : bn<0 ∨ limit g≤bn) :
    f.balloc2 g nobuff a bn size=.ok (f,some .efbig) := by
  generalize hr : f.balloc2 g nobuff a bn size=r
  have hlimit := limit_gt g
  cases balloc2_inv hr with
  | efbig => rfl
  | _ => omega

theorem balloc2_range {nobuff : Bool} {a : Balloc} {bn : ℤ} {size : ℕ}
    (h : f.balloc2 g nobuff a bn size=.ok (f',none)) : 0≤bn ∧ bn<limit g := by
  by_contra hout
  rw [balloc2_efbig (by omega)] at h
  cases h

theorem block_end_le {x : ℤ} (h : x/g.blocksize<limit g) :
    x-x%g.blocksize+g.blocksize≤g.maxfilesize := by
  have hsplit := Int.mul_ediv_add_emod x g.blocksize
  have hmul : (g.blocksize : ℤ)*(x/g.blocksize+1)≤g.blocksize*limit g :=
    mul_le_mul_of_nonneg_left (by omega) (blocksize_pos g).le
  rw [maxfilesize_eq,Nat.cast_mul]
  linarith

theorem truncate_size {a : Truncation} {length : ℤ} {e : Option Error}
    (h : f.truncate g a length=.ok (f',e)) : f'.size=f.size ∨ f'.size=length.toNat := by
  unfold File.truncate at h
  split at h
  · cases h
    exact .inl rfl
  split at h
  · cases h
    exact .inl rfl
  split at h
  · split at h
    · cases h
    case h_2 hb =>
      cases h
      exact .inl (balloc2_size hb)
    · cases h
      exact .inr rfl
  split at h
  · cases h
    exact .inr rfl
  split at h
  · cases h
  case h_2 hb =>
    cases h
    exact .inl (balloc2_size hb)
  · cases h
    exact .inr rfl

namespace FailsAt

theorem obtains (h : FailsAt g f ans.balloc u n) {i : ℕ} (hi : u.before g i<u.allocated g n) :
    f.Obtains g (ans.balloc i) (u.lbn g i) := by
  cases n with
  | none =>
    have := u.before_nonneg g i
    exact h i ((lt_max_iff.mp hi).resolve_left (by omega))
  | some n => exact h.2.1 i ((u.before_lt g).mp hi)

variable (h : FailsAt g f ans.balloc u n) (h0 : 0≤u.offset) (hlt : u.offset<g.maxfilesize)

include h h0 hlt

theorem lbn_eq {i : ℕ} (hi : u.before g i<u.allocated g n) :
    u.lbn g i=u.offset/g.blocksize+i ∧ u.offset/g.blocksize+i<limit g := by
  have hlimit := limit_lt g
  have hpos := Int.ediv_nonneg h0 (blocksize_pos g).le
  have exact_of_le (i : ℕ) (hi : u.before g i<u.allocated g n)
      (hle : u.offset/g.blocksize+i≤limit g) :
      u.lbn g i=u.offset/g.blocksize+i ∧ u.offset/g.blocksize+i<limit g := by
    have heq : u.lbn g i=u.offset/g.blocksize+i := Blocks.int32_eq (by omega) (by omega)
    exact ⟨heq,heq ▸ (h.obtains hi).below⟩
  induction i with
  | zero =>
    have := div_lt_limit.mpr hlt
    exact exact_of_le 0 hi (by omega)
  | succ i ih =>
    have := (ih (((u.before_lt g).mpr i.lt_succ_self).trans hi)).2
    exact exact_of_le (i+1) hi (by omega)

theorem end_le : u.offset+u.allocated g n≤g.maxfilesize := by
  by_contra hgt
  have hdiv := div_lt_limit.mpr hlt
  have hi : u.before g (limit g-u.offset/g.blocksize).toNat=g.maxfilesize-u.offset := by
    have hsplit := Int.mul_ediv_add_emod u.offset g.blocksize
    rw [Uio.before,if_neg (by omega),Int.toNat_of_nonneg (by omega),maxfilesize_eq,Nat.cast_mul]
    linarith
  have := (h.lbn_eq h0 hlt (i := (limit g-u.offset/g.blocksize).toNat) (by omega)).2
  omega

end FailsAt

structure Kept (g : Geometry) (u : Uio) (c : Branch) : Prop where
  calls : ∀ x∈c.calls,x.2=x.1/g.blocksize
  size : c.file.size≤g.maxfilesize
  uio : c.uio=⟨u.offset+c.stored,u.resid-c.stored⟩

theorem writeCluster_kept (hu : u.Valid) (hlt : u.offset<g.maxfilesize)
    (hsize : f.size≤g.maxfilesize) (hr : u.resid<2^31 ∨ u.offset+u.resid≤g.maxfilesize)
    (h : writeCluster g ans io f u=.ok c) :
    Kept g u c := by
  obtain ⟨n,hn,hc⟩ := writeCluster_clustered hu h
  have h0 := hu.offset
  have hend := hn.end_le h0 hlt
  have hb := hc.bounds
  have ha := hc.allocated
  have hstored : u.offset+u.stored g ans n≤g.maxfilesize := by
    rcases hr with hr | hr
    · have hres := hu.resid
      have hle := (ans.moved_bounds (u.resid-(max 0 (int32 u.resid)-u.allocated g n))
        (by have := int32_le hres.le; omega)).2.1
      rw [Blocks.int32_eq hres.le hr,max_eq_right hres.le] at hle
      rw [Uio.stored,Blocks.int32_eq hres.le hr,max_eq_right hres.le]
      omega
    · omega
  refine ⟨fun x hx => ?_,?_,by rw [hc.stored]; exact hc.uio⟩
  · obtain ⟨i,hi,rfl⟩ := (hc.calls x).mp hx
    exact (hn.lbn_eq h0 hlt hi).1.trans (u.before_div g i).symm
  · rw [hc.size]
    split <;> omega

theorem writeBuffers_kept (m k : ℕ) (hb : Kept g u b) (h0 : 0≤b.uio.offset)
    (hle : b.uio.offset≤g.maxfilesize) (h : writeBuffers g ans m k b=.ok b') : Kept g u b' := by
  induction m generalizing k b with
  | zero =>
    cases h
    exact hb
  | succ m ih =>
    rw [writeBuffers] at h
    split at h
    · cases h
      exact hb
    case isFalse hpos =>
    dsimp only at h
    obtain ⟨hx0,-,hend⟩ := xfersize_bounds g b.uio.offset (not_le.mp hpos)
    have hlbn := lbn_eq h0 hle
    have hoff : b.uio.offset=u.offset+b.stored := by rw [hb.uio]
    have hres : b.uio.resid=u.resid-b.stored := by rw [hb.uio]
    split at h
    · cases h
    case h_2 f' e hf =>
      cases h
      exact ⟨hb.calls,(balloc2_size hf).trans_le hb.size,hb.uio⟩
    case h_3 f' hf =>
    have hin := (balloc2_range hf).2
    rw [hlbn] at hin h
    have hmax := block_end_le hin
    have hlimit := limit_lt g
    have hbs := (blocksize_bounds g).2
    have hmax63 : (g.maxfilesize : ℤ)<2^63 := by
      have : limit g*g.blocksize<2^31*2^13 := Nat.mul_lt_mul'' hlimit (by omega)
      rw [maxfilesize_eq]
      omega
    have hsz := (balloc2_size hf).trans_le hb.size
    rw [uint64_eq (by omega) (by omega)] at h
    have hsize : max f'.size (b.uio.offset+xfersize g b.uio.offset b.uio.resid).toNat≤
        g.maxfilesize := by omega
    have hcalls : ∀ x∈b.calls++[(b.uio.offset,b.uio.offset/(g.blocksize : ℤ))],
        x.2=x.1/g.blocksize := by
      intro x hx
      rcases List.mem_append.mp hx with hx | hx
      · exact hb.calls x hx
      · rw [List.mem_singleton.mp hx]
    have moves (t : ℤ) (ht : 0≤t) (hxt : t≤xfersize g b.uio.offset b.uio.resid) :
        int64 (b.uio.offset+t)=b.uio.offset+t := int64_eq (by omega) (by omega)
    split at h
    · cases h
      exact ⟨hcalls,hsize,hb.uio⟩
    case isFalse hsome =>
    split at h
    case h_1 t e he =>
      cases h
      refine ⟨hcalls,hsize,?_⟩
      rw [moves _ (by omega) (by omega)]
      rw [hoff,hres]
      exact congrArg₂ Uio.mk (by ring) (by ring)
    case h_2 he =>
      rw [moves _ (by omega) (by omega)] at h
      refine ih (k+1) ⟨hcalls,hsize,?_⟩ ?_ ?_ h
      · dsimp only
        rw [hoff,hres]
        exact congrArg₂ Uio.mk (by ring) (by ring)
      · dsimp only
        omega
      · dsimp only
        omega

theorem writeBody_sound (hu : u.Valid) (hsize : f.size<2^63) (hlow : f.size≤g.maxfilesize)
    (hr : io.unit=true → u.resid<2^31) (hbody : writeBody g v ans io f u=.ok b)
    (hkept : ∀ c,(if v.ubc then writeCluster g ans io f u
      else writeBuffers g ans u.resid.toNat 0 ⟨f,u,none,0,[]⟩)=.ok c → Kept g u c) :
    Sound g io u b := by
  obtain ⟨c,hc,hstored,hcalls,hcases⟩ := writeBody_inv hbody
  have h := hkept c hc
  have hosize : int64 f.size=f.size := int64_eq (by omega) (by exact_mod_cast hsize)
  right
  refine ⟨by rw [hcalls]; exact h.calls,?_⟩
  rcases hcases with ⟨herr,hunit,hbe,huio,e,ht⟩ | ⟨-,-,rfl⟩ | ⟨-,hf,huio,-⟩
  · rw [hosize] at ht
    refine ⟨?_,0,.inr ⟨rfl,by rw [hbe]; exact herr,hunit⟩,?_⟩
    · rcases truncate_size ht with hs | hs
      · exact hs.trans_le h.size
      · exact hs.trans_le hlow
    have hres := hu.resid
    have hsum := hu.sum
    rw [huio,h.uio,Blocks.int32_eq hres.le (hr hunit)]
    refine congrArg₂ Uio.mk ?_ (by ring)
    rw [show u.offset+c.stored-(u.resid-(u.resid-c.stored))=u.offset by ring,add_zero]
    exact int64_eq hu.offset (by omega)
  · exact ⟨h.size,b.stored,.inl rfl,h.uio⟩
  · exact ⟨by rw [hf]; exact h.size,b.stored,.inl rfl,by rw [huio,hstored]; exact h.uio⟩

theorem writeBody_refused (hu : u.Valid) (hbody : writeBody g v ans io f u=.ok b)
    (hout : int32 (u.offset/g.blocksize)<0 ∨ limit g ≤ int32 (u.offset/g.blocksize))
    (hr : v.ubc=true → u.resid<2^31) : Sound g io u b := by
  obtain ⟨c,hc,hstored,hcalls,hcases⟩ := writeBody_inv hbody
  have hres := hu.resid
  obtain ⟨m,hm⟩ : ∃ m,u.resid.toNat=m+1 := ⟨u.resid.toNat-1,by omega⟩
  have hrefused : c.error.isSome=true ∧ c.calls=[] ∧ c.stored=0 := by
    split at hc
    case isTrue hubc =>
      have h32 := Blocks.int32_eq hres.le (hr hubc)
      obtain ⟨l,f',hl,-,rfl⟩ := writeCluster_inv hc
      rw [h32,hm,allocLoop,if_neg (by exact not_le.mpr hres)] at hl
      dsimp only at hl
      rw [balloc2_efbig hout] at hl
      cases hl
      have hnone : ans.moved (u.resid-u.resid)=0 := by
        have := ans.moved_bounds (u.resid-u.resid) (by omega)
        omega
      exact ⟨Option.isSome_or.trans (Bool.or_true _),rfl,hnone⟩
    case isFalse hubc =>
      rw [hm,writeBuffers,if_neg (not_le.mpr hres)] at hc
      dsimp only at hc
      rw [balloc2_efbig hout] at hc
      cases hc
      exact ⟨rfl,rfl,rfl⟩
  refine .inl ⟨?_,hcalls.trans hrefused.2.1,hstored.trans hrefused.2.2⟩
  rcases hcases with ⟨-,-,hbe,-⟩ | ⟨-,-,rfl⟩ | ⟨hnone,-⟩
  · rw [hbe]
    exact hrefused.1
  · exact hrefused.1
  · rw [hnone] at hrefused
    cases hrefused.1

def clusterFails : Answers := { nothingFails with cluster := some (1,.eio) }

def copyFails : Answers := { nothingFails with uiomove := fun _ => some (0,.eio) }

theorem nothingFails_obtains {bn : ℤ} (h0 : 0≤bn) (hlt : bn<limit g) (k : ℕ) :
    f.Obtains g (nothingFails.balloc k) bn :=
  ⟨h0,hlt,fun _ _ => by change 5+k≠0; omega,fun _ => rfl⟩

theorem large_kept (hsize : f.size<2^63) (hle : b.file.size≤g.maxfilesize)
    (hgrown : f.size ≤ c.file.size) (hfile : b.file=c.file ∨
      io.unit=true ∧ ∃ e,c.file.truncate g ans.undo (int64 f.size)=.ok (b.file,e)) :
    f.size≤g.maxfilesize := by
  by_contra hlarge
  have hf : b.file=c.file := by
    rcases hfile with hf | ⟨-,e,ht⟩
    · exact hf
    · rw [int64_eq (by omega) (by exact_mod_cast hsize),File.truncate,if_pos (.inr (by omega))] at ht
      exact (Prod.mk.inj (Except.ok.inj ht)).1.symm
  rw [hf] at hle
  exact hlarge (hgrown.trans hle)

theorem writeBody_file (hbody : writeBody g v ans io f u=.ok b) :
    ∃ c,(if v.ubc then writeCluster g ans io f u
        else writeBuffers g ans u.resid.toNat 0 ⟨f,u,none,0,[]⟩)=.ok c ∧
      b.stored=c.stored ∧ b.calls=c.calls ∧ (b.file=c.file ∨
        io.unit=true ∧ ∃ e,c.file.truncate g ans.undo (int64 f.size)=.ok (b.file,e)) := by
  obtain ⟨c,hc,hstored,hcalls,hcases⟩ := writeBody_inv hbody
  refine ⟨c,hc,hstored,hcalls,?_⟩
  rcases hcases with ⟨-,hunit,-,-,ht⟩ | ⟨-,-,rfl⟩ | ⟨-,hf,-⟩
  · exact .inr ⟨hunit,ht⟩
  · exact .inl rfl
  · exact .inl hf

namespace Clustered

variable (h : Clustered g ans io f u n c) (hu : u.Valid) (hsize : f.size<2^63)

include h hu hsize

theorem size_ge : f.size ≤ c.file.size ∧ (u.offset+u.stored g ans n).toNat ≤ c.file.size := by
  have h0 := hu.offset
  rw [h.size_small hsize]
  split <;> omega

end Clustered

theorem short_inRange (hubc : v.ubc=true) (hu : u.Valid) (hsize : f.size<2^63)
    (hin : 0 ≤ int32 (u.offset/g.blocksize) ∧ int32 (u.offset/g.blocksize)<limit g)
    (hr : u.resid<2^31) (hbody : writeBody g v nothingFails io f u=.ok b) (hs : Sound g io u b) :
    u.offset<g.maxfilesize ∧ f.size≤g.maxfilesize := by
  obtain ⟨c,hc,hstored,hcalls,hfile⟩ := writeBody_file hbody
  rw [if_pos hubc] at hc
  obtain ⟨n,hn,h⟩ := writeCluster_clustered hu hc
  have hlbn : u.lbn g 0=int32 (u.offset/g.blocksize) := by rw [Uio.lbn,Nat.cast_zero,add_zero]
  have hfirst : (u.offset,int32 (u.offset/g.blocksize))∈b.calls := by
    rw [hcalls,h.calls]
    refine ⟨0,?_,by rw [u.before_zero,hlbn,add_zero]⟩
    have hres := hu.resid
    cases n with
    | none =>
      rw [u.before_zero,Uio.allocated,Blocks.int32_eq hres.le hr]
      omega
    | some n =>
      refine (u.before_lt g).mpr (Nat.pos_of_ne_zero ?_)
      rintro rfl
      exact hn.2.2 (hlbn ▸ nothingFails_obtains hin.1 hin.2 0)
  rcases hs with ⟨-,hnil,-⟩ | ⟨hsound,hle,-⟩
  · rw [hnil] at hfirst
    cases hfirst
  · refine ⟨div_lt_limit.mp ?_,?_⟩
    · rw [← hsound _ hfirst]
      exact hin.2
    · exact large_kept hsize hle (h.size_ge hu hsize).1 hfile

theorem long_inRange (hubc : v.ubc=true) (hu : u.Valid) (hsize : f.size<2^63) (hr : 2^31≤u.resid)
    (hunit : io.unit=false) (hbody : writeBody g v nothingFails io f u=.ok b)
    (hs : Sound g io u b) :
    u.offset<g.maxfilesize ∧ f.size≤g.maxfilesize ∧ u.offset+u.resid≤g.maxfilesize := by
  obtain ⟨c,hc,hstored,hcalls,hfile⟩ := writeBody_file hbody
  rw [if_pos hubc] at hc
  obtain ⟨n,hn,h⟩ := writeCluster_clustered hu hc
  have h0 := hu.offset
  have h32 := int32_lt u.resid
  have hal := h.allocated
  have heq : u.stored g nothingFails n=u.resid-(max 0 (int32 u.resid)-u.allocated g n) := rfl
  rcases hs with ⟨-,-,hz⟩ | ⟨-,hle,-⟩
  · rw [hstored,h.stored] at hz
    omega
  have hge := h.size_ge hu hsize
  rw [hfile.resolve_right (fun hf => by rw [hunit] at hf; cases hf.1)] at hle
  cases n with
  | none =>
    rw [Uio.allocated] at heq
    omega
  | some k =>
    -- with nothing failing the allocation ends at the limit, and what is stored goes beyond
    have hend : (g.maxfilesize : ℤ)≤u.offset+u.before g k := by
      by_contra hlt
      have hdiv := div_lt_limit.mpr (not_le.mp hlt)
      have hpos := Int.ediv_nonneg h0 (blocksize_pos g).le
      have hlimit := limit_lt g
      rw [u.before_div] at hdiv
      have hk : u.lbn g k=u.offset/g.blocksize+k := Blocks.int32_eq (by omega) (by omega)
      exact hn.2.2 (nothingFails_obtains (by omega) (by omega) k)
    rw [Uio.allocated] at heq
    omega

/-- `IO_UNIT` gives the request back with a length that was taken modulo `2^32`. -/
theorem unit_inRange (hubc : v.ubc=true) (hu : u.Valid) (hunit : io.unit=true)
    (hbody : writeBody g v clusterFails io f u=.ok b) (hs : Sound g io u b) : u.resid<2^31 := by
  by_contra hr
  obtain ⟨c,hc,hstored,-,hcases⟩ := writeBody_inv hbody
  rw [if_pos hubc] at hc
  obtain ⟨n,-,h⟩ := writeCluster_clustered hu hc
  have h32 := int32_lt u.resid
  have hal := h.allocated
  have hone : b.stored=1 := by
    rw [hstored,h.stored]
    change min 1 (u.resid-(max 0 (int32 u.resid)-u.allocated g n))=1
    omega
  have herr : c.error.isSome=true := h.error.mpr (.inr rfl)
  have huio : b.uio.resid=int32 u.resid := by
    rcases hcases with ⟨-,-,-,huio,-⟩ | ⟨-,hunit',-⟩ | ⟨hnone,-⟩
    · rw [huio]
    · rw [hunit] at hunit'
      cases hunit'
    · rw [hnone] at herr
      cases herr
  rcases hs with ⟨-,-,hz⟩ | ⟨-,-,m,hm,hb⟩
  · omega
  rw [hb] at huio
  have hmod : int32 u.resid=u.resid-m := huio.symm
  rw [int32,Int.bmod_def] at hmod
  rcases hm with rfl | ⟨rfl,-⟩
  · rw [hone] at hmod
    omega
  · omega

theorem buffers_inRange (hubc : v.ubc=false) (hu : u.Valid) (hsize : f.size<2^63)
    (hin : 0 ≤ int32 (u.offset/g.blocksize) ∧ int32 (u.offset/g.blocksize)<limit g)
    (hbody : writeBody g v copyFails io f u=.ok b) (hs : Sound g io u b) :
    u.offset<g.maxfilesize ∧ f.size≤g.maxfilesize ∧ (u.resid<2^31 ∨ io.unit=false) := by
  obtain ⟨c,hc,hstored,hcalls,hcases⟩ := writeBody_inv hbody
  obtain ⟨c',hc',-,-,hfile⟩ := writeBody_file hbody
  obtain rfl := Except.ok.inj (hc.symm.trans hc')
  rw [if_neg (by simp [hubc])] at hc
  have hfirst : c.calls=[(u.offset,int32 (u.offset/g.blocksize))] ∧ c.error.isSome=true ∧
      c.stored=0 ∧ f.size ≤ c.file.size := by
    have hres := hu.resid
    obtain ⟨m,hm⟩ : ∃ m,u.resid.toNat=m+1 := ⟨u.resid.toNat-1,by omega⟩
    rw [hm,writeBuffers,if_neg (not_le.mpr hres)] at hc
    dsimp only at hc
    split at hc
    · cases hc
    case h_2 f' e hf =>
      cases balloc2_succeeds ⟨by decide,rfl,rfl⟩ hin.1 hin.2 hf
    case h_3 f' hf =>
      obtain ⟨hx0,-,-⟩ := xfersize_bounds g u.offset hres
      rw [if_neg (by change ¬min _ (1024 : ℤ)≤0; omega)] at hc
      cases hc
      refine ⟨rfl,rfl,?_,?_⟩
      · change 0+min (0 : ℤ) (min _ (1024 : ℤ))=0
        omega
      · rw [← balloc2_size hf]
        exact le_max_left _ _
  obtain ⟨hcall,herr,hzero,hgrown⟩ := hfirst
  rcases hs with ⟨-,hnil,-⟩ | ⟨hsound,hle,m,hm,hb⟩
  · rw [hcalls,hcall] at hnil
    cases hnil
  refine ⟨div_lt_limit.mp ?_,large_kept hsize hle hgrown hfile,?_⟩
  · have := hsound (u.offset,int32 (u.offset/g.blocksize)) (by rw [hcalls,hcall]; exact .head _)
    rw [← this]
    exact hin.2
  rcases hcases with ⟨-,-,-,huio,-⟩ | ⟨-,hunit,-⟩ | ⟨hnone,-⟩
  · left
    have hm0 : m=0 := hm.elim (fun hm => hm.trans (hstored.trans hzero)) And.left
    rw [hb,hm0,sub_zero] at huio
    exact (congrArg Uio.resid huio).trans_lt (int32_lt u.resid)
  · exact .inr hunit
  · rw [hnone] at herr
    cases herr

end Ext2fsX.Files
