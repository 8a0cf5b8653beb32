import Ext2fsX.Files.Arithmetic

namespace Ext2fsX.Files

open Blocks (Geometry getlbns int32 int32_lt)

variable {g : Geometry} {f f' : File}

inductive File.Balloced (g : Geometry) (f : File) (nobuff : Bool) (a : Balloc) (bn : ℤ) (size : ℕ) :
    Except Stop (File × Option Error) → Prop
  | efbig : bn<0 ∨ limit g≤bn → Balloced g f nobuff a bn size (.ok (f,some .efbig))
  | indirect : 12≤bn → bn<limit g → Balloced g f nobuff a bn size (.ok (f,a.indirect))
  | wrong (k : ℕ) : bn=k → k<12 → f.db k≠0 → ¬((k+1)*g.blocksize ≤ f.size ∨
      g.fragroundup size≤g.fragroundup (f.size%g.blocksize)) →
      Balloced g f nobuff a bn size (.error .wrong)
  | present (k : ℕ) : bn=k → k<12 → f.db k≠0 → Balloced g f nobuff a bn size
      (.ok (f,if nobuff=false ∧ a.read=false then some .eio else none))
  | enospc (k : ℕ) : bn=k → k<12 → f.db k=0 → a.grant=0 →
      Balloced g f nobuff a bn size (.ok (f,some .enospc))
  | granted (k : ℕ) : bn=k → k<12 → f.db k=0 → a.grant≠0 → Balloced g f nobuff a bn size
      (.ok ({ f with db := Function.update f.db k a.grant },none))

theorem balloc2_spec (g : Geometry) (f : File) (nobuff : Bool) (a : Balloc) (bn : ℤ) (size : ℕ) :
    f.Balloced g nobuff a bn size (f.balloc2 g nobuff a bn size) := by
  unfold File.balloc2
  split
  case isTrue hneg => exact .efbig (.inl hneg)
  case isFalse hneg =>
  have hk : bn=bn.toNat := (Int.toNat_of_nonneg (not_lt.mp hneg)).symm
  split
  case isTrue hdirect =>
    dsimp only
    split
    case isTrue hset =>
      split
      · exact .present _ hk (by omega) hset
      case isFalse hwrong => exact .wrong _ hk (by omega) hset hwrong
    case isFalse hset =>
      rw [not_not] at hset
      split
      case isTrue hfull => exact .enospc _ hk (by omega) hset hfull
      case isFalse hgrant => exact .granted _ hk (by omega) hset hgrant
  case isFalse hdirect =>
    have hiff := getlbns_isNone_iff g bn.toNat (by omega)
    split
    case isTrue hbig => exact .efbig (.inr (by have := hiff.mp hbig; omega))
    case isFalse hbig =>
      rw [hiff] at hbig
      exact .indirect (by omega) (by omega)

variable {a : Balloc} {bn : ℤ} {size : ℕ}

theorem balloc2_inv {nobuff : Bool}
    {r : Except Stop (File × Option Error)} (h : f.balloc2 g nobuff a bn size=r) : f.Balloced g nobuff a bn size r :=
  h ▸ balloc2_spec g f nobuff a bn size

theorem balloc2_size {nobuff : Bool} {e : Option Error}
    (h : f.balloc2 g nobuff a bn size=.ok (f',e)) : f'.size=f.size := by
  cases balloc2_inv h <;> rfl

theorem xfersize_bounds (g : Geometry) (offset : ℤ) {resid : ℤ} (h : 0 < resid) :
    0<xfersize g offset resid ∧ xfersize g offset resid ≤ resid ∧
      offset%g.blocksize+xfersize g offset resid≤g.blocksize := by
  have := blkoff_bounds g offset
  unfold xfersize
  omega

def Round.xfer (g : Geometry) (l : Round) : ℤ := xfersize g l.localOffset l.rsd

variable {l : Round}

theorem Round.xfer_bounds (g : Geometry) (h : 0<l.rsd) :
    0<l.xfer g ∧ l.xfer g≤l.rsd ∧ l.localOffset%g.blocksize+l.xfer g≤g.blocksize :=
  xfersize_bounds g l.localOffset h

def Round.after (g : Geometry) (l : Round) (f' : File) : Round where
  file := { f' with size := max f'.size (l.localOffset+l.xfer g).toNat }
  rsd := l.rsd-l.xfer g
  localOffset := l.localOffset+l.xfer g
  error := none
  calls := l.calls++[(l.localOffset,int32 (l.localOffset/g.blocksize))]

def Round.call (g : Geometry) (l : Round) (a : Balloc) : Except Stop (File × Option Error) :=
  l.file.balloc2 g true a (int32 (l.localOffset/g.blocksize))
    (l.localOffset%g.blocksize+l.xfer g).toNat

/-- One round of the allocation, inside the range of `off_t`. -/
theorem allocLoop_cases (h0 : 0≤l.localOffset) (hlt : l.localOffset+l.rsd<2^63)
    (hpos : 0<l.rsd) (ans : ℕ → Balloc) (n k : ℕ) :
    (∃ x,l.call g (ans k)=.error x ∧ allocLoop g ans (n+1) k l=.error x) ∨
    (∃ f e,l.call g (ans k)=.ok (f,some e) ∧
      allocLoop g ans (n+1) k l=.ok { l with file := f, error := some e }) ∨
    (∃ f,l.call g (ans k)=.ok (f,none) ∧
      allocLoop g ans (n+1) k l=allocLoop g ans n (k+1) (l.after g f)) := by
  obtain ⟨hx0,hxr,-⟩ := Round.xfer_bounds g hpos
  have hnext : int64 (l.localOffset+l.xfer g)=l.localOffset+l.xfer g :=
    int64_eq (by omega) (by omega)
  have hsize : uint64 (l.localOffset+l.xfer g)=(l.localOffset+l.xfer g).toNat :=
    uint64_eq (by omega) (by omega)
  rw [allocLoop,if_neg (not_le.mpr hpos)]
  dsimp only
  rw [← Round.xfer,hnext,hsize]
  unfold Round.call
  rcases l.file.balloc2 g true (ans k) (int32 (l.localOffset/g.blocksize))
    (l.localOffset%g.blocksize+l.xfer g).toNat with x | ⟨f,_ | e⟩
  · exact .inl ⟨x,rfl,rfl⟩
  · exact .inr (.inr ⟨f,rfl,rfl⟩)
  · exact .inr (.inl ⟨f,e,rfl,rfl⟩)

structure File.Obtains (g : Geometry) (f : File) (a : Balloc) (bn : ℤ) : Prop where
  nonneg : 0≤bn
  below : bn<limit g
  direct : bn<12 → f.db bn.toNat=0 → a.grant≠0
  indirect : 12≤bn → a.indirect=none

theorem balloc2_obtains {e : Option Error} (h : f.balloc2 g true a bn size=.ok (f',e)) :
    (e=none ↔ f.Obtains g a bn) ∧ ∀ q : ℕ,q<12 → (f'.db q≠0 ↔ f.db q≠0 ∨ e=none ∧ bn=q) := by
  have hlimit := limit_gt g
  cases balloc2_inv h with
  | efbig hout =>
    refine ⟨⟨nofun,fun ho => ?_⟩,by simp⟩
    have := ho.nonneg
    have := ho.below
    omega
  | indirect h12 hlt =>
    refine ⟨⟨fun hn => ⟨by omega,hlt,by omega,fun _ => hn⟩,fun ho => ho.indirect h12⟩,?_⟩
    intro q hq
    refine ⟨.inl,fun h => h.resolve_right ?_⟩
    rintro ⟨-,rfl⟩
    omega
  | present k hk hlt hset =>
    subst hk
    simp only [Bool.true_eq_false,false_and,if_false,true_and]
    refine ⟨⟨fun _ => ⟨by omega,by omega,fun _ h0 => absurd h0 hset,by omega⟩,fun _ => trivial⟩,?_⟩
    intro q hq
    refine ⟨.inl,fun h => h.elim id fun he => ?_⟩
    rwa [← Int.ofNat.inj he]
  | enospc k hk hlt h0 hfull =>
    subst hk
    exact ⟨⟨nofun,fun ho => absurd hfull (ho.direct (by omega) h0)⟩,by simp⟩
  | granted k hk hlt h0 hgrant =>
    subst hk
    refine ⟨⟨fun _ => ⟨by omega,by omega,fun _ _ => hgrant,by omega⟩,fun _ => rfl⟩,?_⟩
    intro q hq
    by_cases he : q=k
    · subst he
      simp [hgrant]
    · simp [Function.update_of_ne he,Ne.symm he]

namespace Uio

variable (g) (u : Uio)

def lbn (k : ℕ) : ℤ := int32 (u.offset/g.blocksize+k)

def before (k : ℕ) : ℤ := if k=0 then 0 else k*g.blocksize-u.offset%g.blocksize

theorem before_nonneg (k : ℕ) : 0≤u.before g k := by
  have hoff := blkoff_bounds g u.offset
  unfold before
  split
  · exact le_rfl
  case isFalse hk =>
    have hk1 : (1 : ℤ)≤k := by omega
    have := mul_le_mul_of_nonneg_right hk1 (blocksize_pos g).le
    omega

theorem before_zero : u.before g 0=0 := if_pos rfl

theorem before_succ (k : ℕ) :
    u.before g (k+1)=u.before g k+(g.blocksize-(u.offset+u.before g k)%g.blocksize) := by
  unfold before
  rw [if_neg (Nat.succ_ne_zero k)]
  split
  case isTrue hk =>
    subst hk
    simp
  case isFalse hk =>
    have hmod : (u.offset+(k*g.blocksize-u.offset%g.blocksize))%g.blocksize=0 := by
      rw [show u.offset+(k*g.blocksize-u.offset%g.blocksize)=
        u.offset-u.offset%g.blocksize+k*g.blocksize by ring]
      exact Int.emod_eq_zero_of_dvd (Int.dvd_self_sub_emod.add (dvd_mul_left _ _))
    rw [hmod]
    push_cast
    ring

variable {i k : ℕ}

theorem before_mono (h : i≤k) : u.before g i≤u.before g k := by
  induction k,h using Nat.le_induction with
  | base => exact le_rfl
  | succ k _ ih =>
    have := u.before_succ g k
    have := blkoff_bounds g (u.offset+u.before g k)
    omega

theorem before_lt : u.before g i<u.before g k ↔ i<k := by
  have hstep := u.before_succ g i
  have hoff := blkoff_bounds g (u.offset+u.before g i)
  constructor
  · intro h
    by_contra hge
    exact absurd (u.before_mono g (not_lt.mp hge)) (not_le.mpr h)
  · intro h
    have := u.before_mono g (show i+1≤k from h)
    omega

theorem before_div (k : ℕ) : (u.offset+u.before g k)/g.blocksize=u.offset/g.blocksize+k := by
  unfold before
  split
  case isTrue hk =>
    subst hk
    simp
  case isFalse hk =>
    have hsplit := Int.mul_ediv_add_emod u.offset g.blocksize
    rw [show u.offset+(k*g.blocksize-u.offset%g.blocksize)=
      g.blocksize*(u.offset/g.blocksize+k) by linarith]
    exact Int.mul_ediv_cancel_left _ (blocksize_pos g).ne'

theorem lbn_ne (hi : i<k) (hk : u.before g k<2^31) : u.lbn g i≠u.lbn g k := by
  have hoff := blkoff_bounds g u.offset
  have hlt : (k : ℤ)<2^31 := by
    unfold before at hk
    rw [if_neg (by omega)] at hk
    nlinarith
  unfold lbn int32
  rw [Int.bmod_def,Int.bmod_def]
  omega

end Uio

/-- What holds after `k` rounds of the allocation of `r` bytes. -/
structure Progress (g : Geometry) (f : File) (ans : ℕ → Balloc) (u : Uio) (r : ℤ) (k : ℕ) (l : Round) :
    Prop where
  rsd : l.rsd=r-min (u.before g k) r
  offset : l.localOffset=u.offset+min (u.before g k) r
  got : ∀ i<k,u.before g i < r ∧ f.Obtains g (ans i) (u.lbn g i)
  db : ∀ q<12,l.file.db q≠0 ↔ f.db q≠0 ∨ ∃ i<k,u.lbn g i=q
  size : l.file.size=if k=0 then f.size else max f.size l.localOffset.toNat
  calls : ∀ c,c∈l.calls ↔ ∃ i<k,c=(u.offset+u.before g i,u.lbn g i)

variable {ans : ℕ → Balloc} {u : Uio} {r : ℤ} {k : ℕ}

theorem Progress.start (g : Geometry) (f : File) (ans : ℕ → Balloc) (u : Uio) (h : 0 ≤ r) :
    Progress g f ans u r 0 ⟨f,r,u.offset,none,[]⟩ where
  rsd := by rw [u.before_zero g,min_eq_left h,sub_zero]
  offset := by rw [u.before_zero g,min_eq_left h,add_zero]
  got := nofun
  db q _ := ⟨.inl,fun h => h.resolve_right nofun⟩
  size := rfl
  calls c := ⟨nofun,nofun⟩

namespace Progress

variable {l : Round} (h : Progress g f ans u r k l) (hpos : 0<l.rsd)

include h hpos

theorem before_lt : u.before g k < r := by
  have := h.rsd
  omega

theorem localOffset_eq : l.localOffset=u.offset+u.before g k := by
  rw [h.offset,min_eq_left (h.before_lt hpos).le]

theorem lbn_eq : int32 (l.localOffset/g.blocksize)=u.lbn g k := by
  rw [h.localOffset_eq hpos,u.before_div g k]
  rfl

theorem before_xfer : min (u.before g (k+1)) r=u.before g k+l.xfer g := by
  have hlt := h.before_lt hpos
  have hrsd : l.rsd=r-u.before g k := by rw [h.rsd,min_eq_left hlt.le]
  rw [Round.xfer,xfersize,hrsd,h.localOffset_eq hpos,u.before_succ g k]
  omega

theorem obtains_iff (hr : r<2^31) (a : Balloc) :
    l.file.Obtains g a (u.lbn g k) ↔ f.Obtains g a (u.lbn g k) := by
  have hdb : ∀ hlt : u.lbn g k<12,0≤u.lbn g k →
      (l.file.db (u.lbn g k).toNat=0 ↔ f.db (u.lbn g k).toNat=0) := by
    intro hlt h0
    have hne : ¬∃ i<k,u.lbn g i=((u.lbn g k).toNat : ℤ) := by
      rintro ⟨i,hi,he⟩
      rw [Int.toNat_of_nonneg h0] at he
      exact u.lbn_ne g hi ((h.before_lt hpos).trans hr) he
    have hiff := h.db (u.lbn g k).toNat (by omega)
    rw [or_iff_left hne] at hiff
    exact not_iff_not.mp hiff
  constructor
  · intro ho
    exact ⟨ho.nonneg,ho.below,fun hlt h0 => ho.direct hlt ((hdb hlt ho.nonneg).mpr h0),ho.indirect⟩
  · intro ho
    exact ⟨ho.nonneg,ho.below,fun hlt h0 => ho.direct hlt ((hdb hlt ho.nonneg).mp h0),ho.indirect⟩

theorem after (hgot : f.Obtains g (ans k) (u.lbn g k)) (hsize : f'.size=l.file.size)
    (hdb : ∀ q : ℕ,q<12 → (f'.db q≠0 ↔ l.file.db q≠0 ∨ u.lbn g k=q)) :
    Progress g f ans u r (k+1) (l.after g f') where
  rsd := by
    change l.rsd-l.xfer g=_
    rw [h.before_xfer hpos,h.rsd,min_eq_left (h.before_lt hpos).le]
    ring
  offset := by
    change l.localOffset+l.xfer g=_
    rw [h.before_xfer hpos,h.localOffset_eq hpos]
    ring
  got i hi := by
    rcases Nat.lt_succ_iff_lt_or_eq.mp hi with hi | rfl
    · exact h.got i hi
    · exact ⟨h.before_lt hpos,hgot⟩
  db q hq := by
    refine (hdb q hq).trans ?_
    rw [h.db q hq,or_assoc,Nat.exists_lt_succ_right]
  size := by
    have hx := (Round.xfer_bounds g hpos).1
    change max f'.size (l.localOffset+l.xfer g).toNat=max f.size (l.localOffset+l.xfer g).toNat
    rw [hsize,h.size]
    split
    · rfl
    · rw [max_assoc,max_eq_right (a := l.localOffset.toNat) (by omega)]
  calls c := by
    change c∈l.calls++[(l.localOffset,int32 (l.localOffset/g.blocksize))] ↔ _
    rw [List.mem_append,List.mem_singleton,h.calls c,h.lbn_eq hpos,h.localOffset_eq hpos,
      Nat.exists_lt_succ_right]

end Progress

theorem allocLoop_progress (h0 : 0≤u.offset) (hlt : u.offset+r<2^63) (hr : r<2^31) (n k : ℕ)
    {l l' : Round} (h : Progress g f ans u r k l) (hn : l.rsd≤n) (herror : l.error=none)
    (hrun : allocLoop g ans n k l=.ok l') :
    ∃ k',Progress g f ans u r k' l' ∧ (l'.error=none ∧ l'.rsd=0 ∨
      l'.error.isSome=true ∧ 0<l'.rsd ∧ ¬f.Obtains g (ans k') (u.lbn g k')) := by
  have hend := h.rsd
  have hoff := h.offset
  have hbefore := u.before_nonneg g k
  induction n generalizing k l with
  | zero =>
    cases hrun
    exact ⟨k,h,.inl ⟨herror,by omega⟩⟩
  | succ n ih =>
    by_cases hpos : 0<l.rsd
    · obtain ⟨hx0,-,-⟩ := Round.xfer_bounds g hpos
      rcases allocLoop_cases (by omega) (by omega) hpos ans n k with
        ⟨x,-,he⟩ | ⟨f',e,hb,he⟩ | ⟨f',hb,he⟩
      · rw [he] at hrun
        cases hrun
      · rw [he] at hrun
        cases hrun
        have hsize := balloc2_size hb
        unfold Round.call at hb
        rw [h.lbn_eq hpos] at hb
        obtain ⟨hiff,hdb⟩ := balloc2_obtains hb
        refine ⟨k,⟨h.rsd,h.offset,h.got,fun q hq => ?_,hsize.trans h.size,h.calls⟩,
          .inr ⟨rfl,hpos,?_⟩⟩
        · rw [← h.db q hq]
          exact (hdb q hq).trans ⟨fun hq => hq.resolve_right (fun hn => nomatch hn.1),.inl⟩
        · rw [← h.obtains_iff hpos hr]
          exact fun ho => nomatch hiff.mpr ho
      · rw [he] at hrun
        have hsize := balloc2_size hb
        unfold Round.call at hb
        rw [h.lbn_eq hpos] at hb
        obtain ⟨hiff,hdb⟩ := balloc2_obtains hb
        have hnext := h.after hpos ((h.obtains_iff hpos hr (ans k)).mp (hiff.mp rfl)) hsize
          fun q hq => by rw [hdb q hq,eq_self_iff_true,true_and]
        refine ih (k+1) hnext ?_ rfl hrun hnext.rsd hnext.offset (u.before_nonneg g (k+1))
        change l.rsd-l.xfer g≤n
        omega
    · rw [allocLoop,if_pos (not_lt.mp hpos)] at hrun
      cases hrun
      exact ⟨k,h,.inl ⟨herror,by omega⟩⟩

def FailsAt (g : Geometry) (f : File) (ans : ℕ → Balloc) (u : Uio) : Option ℕ → Prop
  | none => ∀ k,u.before g k < int32 u.resid → f.Obtains g (ans k) (u.lbn g k)
  | some n => u.before g n < int32 u.resid ∧ (∀ k<n,f.Obtains g (ans k) (u.lbn g k)) ∧
      ¬f.Obtains g (ans n) (u.lbn g n)

theorem FailsAt.unique {n m : Option ℕ} (h : FailsAt g f ans u n) (h' : FailsAt g f ans u m) :
    n=m := by
  cases n with
  | none =>
    cases m with
    | none => rfl
    | some m => exact absurd (h m h'.1) h'.2.2
  | some n =>
    cases m with
    | none => exact absurd (h' n h.1) h.2.2
    | some m =>
      rcases lt_trichotomy n m with hlt | rfl | hgt
      · exact absurd (h'.2.1 n hlt) h.2.2
      · rfl
      · exact absurd (h.2.1 m hgt) h'.2.2

/-- The bytes of a request that come before the first block that cannot be had. -/
def Uio.allocated (g : Geometry) (u : Uio) : Option ℕ → ℤ
  | none => max 0 (int32 u.resid)
  | some n => u.before g n

def Uio.Gets (g : Geometry) (u : Uio) (n : Option ℕ) (q : ℕ) : Prop :=
  ∃ i,u.before g i<u.allocated g n ∧ u.lbn g i=q

/-- What the allocation of a request leaves, in terms of the block at which it fails. -/
structure Allocation (g : Geometry) (f : File) (u : Uio) (n : Option ℕ) (l : Round) : Prop where
  bounds : 0≤u.allocated g n ∧ u.allocated g n ≤ max 0 (int32 u.resid)
  error : l.error.isSome=n.isSome
  saved : l.saved=max 0 (int32 u.resid)-u.allocated g n
  db : ∀ q<12,l.file.db q≠0 ↔ f.db q≠0 ∨ u.Gets g n q
  size : l.file.size=if u.allocated g n=0 then f.size
    else max f.size (u.offset+u.allocated g n).toNat
  calls : ∀ c,c∈l.calls ↔ ∃ i,u.before g i<u.allocated g n ∧ c=(u.offset+u.before g i,u.lbn g i)

theorem Progress.allocation {l : Round} {n : Option ℕ} (h : Progress g f ans u (int32 u.resid) k l)
    (hn : min (u.before g k) (int32 u.resid)=u.allocated g n)
    (hk : ∀ i,i<k ↔ u.before g i<u.allocated g n) (hr : 0 ≤ int32 u.resid)
    (herr : l.error.isSome=n.isSome) (hall : n=none → u.allocated g n=int32 u.resid) : Allocation g f u n l where
  bounds := by
    have := u.before_nonneg g k
    omega
  error := herr
  saved := by
    rw [max_eq_right hr,Round.saved,h.rsd,hn,herr]
    split
    · rfl
    case isFalse hs => rw [hall (by simpa using hs),sub_self]
  db q hq := by
    rw [h.db q hq,Uio.Gets]
    simp only [hk]
  size := by
    rw [h.size,h.offset,hn]
    refine if_congr ?_ rfl rfl
    have h0 := hk 0
    rw [u.before_zero g] at h0
    have := u.before_nonneg g k
    omega
  calls c := by
    rw [h.calls c]
    simp only [hk]

theorem alloc_spec {l : Round} (h0 : 0≤u.offset) (hlt : u.offset+int32 u.resid<2^63)
    (hrun : allocLoop g ans (int32 u.resid).toNat 0 ⟨f,int32 u.resid,u.offset,none,[]⟩=.ok l) :
    ∃ n,FailsAt g f ans u n ∧ Allocation g f u n l := by
  by_cases hpos : 0 ≤ int32 u.resid
  · obtain ⟨k,h,hend⟩ := allocLoop_progress h0 hlt (int32_lt u.resid) _ 0
      (Progress.start g f ans u hpos) (Int.self_le_toNat _) rfl hrun
    rcases hend with ⟨hnone,hrsd⟩ | ⟨hsome,hrsd,hfail⟩
    · have hle : int32 u.resid≤u.before g k := by
        have := h.rsd
        omega
      have hk : ∀ i,i<k ↔ u.before g i < int32 u.resid := by
        refine fun i => ⟨fun hi => (h.got i hi).1,fun hi => ?_⟩
        by_contra hge
        have := u.before_mono g (not_lt.mp hge)
        omega
      have hall : u.allocated g none=int32 u.resid := max_eq_right hpos
      refine ⟨none,fun i hi => (h.got i ((hk i).mpr hi)).2,h.allocation ?_ ?_ hpos ?_ fun _ => hall⟩
      · rw [hall,min_eq_right hle]
      · rwa [hall]
      · rw [hnone]
        rfl
    · have hk := h.before_lt hrsd
      refine ⟨some k,⟨hk,fun i hi => (h.got i hi).2,hfail⟩,h.allocation (min_eq_left hk.le) ?_ hpos
        (by rw [hsome]; rfl) nofun⟩
      exact fun i => (u.before_lt g).symm
  · -- a count that is negative as an `int` asks for no block
    rw [Int.toNat_of_nonpos (by omega)] at hrun
    cases hrun
    have hlow : ∀ k,¬u.before g k < max 0 (int32 u.resid) := by
      intro k
      have := u.before_nonneg g k
      omega
    refine ⟨none,fun k hk => absurd (lt_max_of_lt_right hk) (hlow k),?_⟩
    refine ⟨⟨le_max_left _ _,le_rfl⟩,rfl,(sub_self _).symm,?_,?_,?_⟩
    · exact fun q _ => ⟨.inl,fun h => h.resolve_right fun ⟨i,hi,_⟩ => hlow i hi⟩
    · exact (if_pos (max_eq_left (not_le.mp hpos).le)).symm
    · exact fun c => ⟨nofun,fun ⟨i,hi,_⟩ => absurd hi (hlow i)⟩

theorem Answers.moved_bounds (ans : Answers) (resid : ℤ) (h : 0 ≤ resid) :
    0≤ans.moved resid ∧ ans.moved resid ≤ resid ∧ (ans.cluster=none → ans.moved resid=resid) := by
  unfold Answers.moved
  cases ans.cluster with
  | none => exact ⟨h,le_rfl,fun _ => rfl⟩
  | some x => exact ⟨le_min (Int.natCast_nonneg _) h,min_le_right _ _,nofun⟩

end Ext2fsX.Files
