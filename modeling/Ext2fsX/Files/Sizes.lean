import Ext2fsX.Files.History

namespace Ext2fsX.Files

open Blocks (Geometry getlbns int32 kilo)

variable {g : Geometry} {v : Vnode} {f f' : File} {ans : Answers} {io : Ioflag} {u : Uio} {b : Branch}

theorem writeCluster_inv (h : writeCluster g ans io f u=.ok b) :
    ∃ l f',allocLoop g ans.balloc (int32 u.resid).toNat 0 ⟨f,int32 u.resid,u.offset,none,[]⟩=.ok l ∧
      settle g ans io (int64 f.size) (int64 (u.offset+ans.moved (u.resid-l.saved))) l.file=.ok f' ∧
      b=⟨f',⟨int64 (u.offset+ans.moved (u.resid-l.saved)),
        u.resid-l.saved-ans.moved (u.resid-l.saved)+l.saved⟩,
        (ans.cluster.map Prod.snd).or l.error,ans.moved (u.resid-l.saved),l.calls⟩ := by
  unfold writeCluster at h
  dsimp only at h
  split at h
  · cases h
  case h_2 l hl =>
    split at h
    · cases h
    case h_2 f' hf' =>
      cases h
      exact ⟨l,f',hl,hf',rfl⟩

theorem writeBody_inv (h : writeBody g v ans io f u=.ok b) :
    ∃ c,(if v.ubc then writeCluster g ans io f u
        else writeBuffers g ans u.resid.toNat 0 ⟨f,u,none,0,[]⟩)=.ok c ∧
      b.stored=c.stored ∧ b.calls=c.calls ∧
      (c.error.isSome=true ∧ io.unit=true ∧ b.error=c.error ∧
          b.uio=⟨int64 (c.uio.offset-(int32 u.resid-c.uio.resid)),int32 u.resid⟩ ∧
          (∃ e,c.file.truncate g ans.undo (int64 f.size)=.ok (b.file,e)) ∨
        c.error.isSome=true ∧ io.unit=false ∧ b=c ∨
        c.error=none ∧ b.file=c.file ∧ b.uio=c.uio ∧
          b.error=if c.uio.resid < int32 u.resid ∧ io.sync=true then ans.update else none) := by
  unfold writeBody at h
  dsimp only at h
  split at h
  · cases h
  case h_2 c hc =>
  refine ⟨c,hc,?_⟩
  split at h
  case isTrue herror =>
    split at h
    case isTrue hunit =>
      split at h
      · cases h
      case h_2 f' e ht =>
        cases h
        exact ⟨rfl,rfl,.inl ⟨herror,hunit,rfl,rfl,e,ht⟩⟩
    case isFalse hunit =>
      cases h
      exact ⟨rfl,rfl,.inr (.inl ⟨herror,by simpa using hunit,rfl⟩)⟩
  case isFalse herror =>
    have hnone : c.error=none := by simpa using herror
    split at h
    case isTrue hsync =>
      cases h
      exact ⟨rfl,rfl,.inr (.inr ⟨hnone,rfl,rfl,(if_pos hsync).symm⟩)⟩
    case isFalse hsync =>
      cases h
      exact ⟨rfl,rfl,.inr (.inr ⟨hnone,rfl,rfl,hnone.trans (if_neg hsync).symm⟩)⟩

theorem settle_size {osize offset : ℤ} (h : settle g ans io osize offset f=.ok f') :
    f'.size=(if osize<offset then uint64 offset else f.size) ∧ (io.unit=true → f'.db=f.db) := by
  unfold settle at h
  split at h
  case isTrue hgrown =>
    rw [if_pos hgrown]
    split at h
    case isTrue hcut =>
      split at h
      · cases h
      · cases h
        refine ⟨rfl,fun hunit => ?_⟩
        rw [hcut.2] at hunit
        cases hunit
    · cases h
      exact ⟨rfl,fun _ => rfl⟩
  case isFalse hgrown =>
    cases h
    exact ⟨(if_neg hgrown).symm,fun _ => rfl⟩

def Balloc.Reads (a : Balloc) (k : ℕ) (set : Prop) : Prop :=
  (k<12 → (set → a.read=true) ∧ (¬set → a.grant≠0)) ∧ (12≤k → a.indirect=none)

theorem balloc2_reads {a : Balloc} {k size : ℕ} {e : Option Error} (hk : k<limit g)
    (h : f.balloc2 g false a k size=.ok (f',e)) : e=none ↔ a.Reads k (f.db k≠0) := by
  cases balloc2_inv h with
  | efbig hout => omega
  | indirect h12 =>
    have h12 : 12≤k := by exact_mod_cast h12
    exact ⟨fun hn => ⟨by omega,fun _ => hn⟩,fun hr => hr.2 h12⟩
  | present j hj hlt hset =>
    obtain rfl := Int.ofNat.inj hj
    cases hread : a.read
    · simp [Balloc.Reads,hlt,hset,hread]
    · simp [Balloc.Reads,hlt,hset,hread]
  | enospc j hj hlt h0 hfull =>
    obtain rfl := Int.ofNat.inj hj
    exact ⟨nofun,fun hr => absurd hfull ((hr.1 hlt).2 (not_not.mpr h0))⟩
  | granted j hj hlt h0 hgrant =>
    obtain rfl := Int.ofNat.inj hj
    exact ⟨fun _ => ⟨fun _ => ⟨fun hs => absurd h0 hs,fun _ => hgrant⟩,by omega⟩,fun _ => rfl⟩

def CanCut (g : Geometry) (a : Balloc) (n : ℕ) (set : Prop) : Prop :=
  n≤g.maxfilesize ∧ (n%g.blocksize=0 ∨ a.Reads (n/g.blocksize) set)

theorem truncate_back {a : Truncation} {n : ℕ} {e : Option Error} (hle : n≤f.size)
    (hlt : f.size<2^63) (h : f.truncate g a n=.ok (f',e)) :
    f'.size=n ↔ f.size=n ∨ CanCut g a.balloc n (f.db (n/g.blocksize)≠0) := by
  unfold File.truncate at h
  split at h
  case isTrue hrange =>
    cases h
    refine ⟨.inl,fun h => h.resolve_right fun hcan => ?_⟩
    have := hcan.1
    omega
  case isFalse hrange =>
  have hmax : n≤g.maxfilesize := by omega
  split at h
  case isTrue hsame =>
    cases h
    exact ⟨.inl,fun _ => by exact_mod_cast hsame⟩
  case isFalse hdiff =>
  rw [int64_eq (Int.natCast_nonneg _) (by exact_mod_cast hlt),if_neg (by omega)] at h
  split at h
  case isTrue hmod =>
    cases h
    have hmod' : n%g.blocksize=0 := by exact_mod_cast hmod
    exact ⟨fun _ => .inr ⟨hmax,.inl hmod'⟩,fun _ => Int.toNat_natCast n⟩
  case isFalse hmod =>
  have hmod' : n%g.blocksize≠0 := by exact_mod_cast hmod
  have hlbn : int32 ((n : ℤ)/g.blocksize)=((n/g.blocksize : ℕ) : ℤ) := by
    rw [lbn_eq (Int.natCast_nonneg n) (by exact_mod_cast hmax)]
    exact (Int.natCast_div _ _).symm
  have hk : n/g.blocksize<limit g := by
    exact_mod_cast div_lt_limit_of_mod (g := g) (by exact_mod_cast hmax) hmod
  rw [hlbn] at h
  split at h
  · cases h
  case h_2 f1 e1 hb =>
    cases h
    refine ⟨fun hs => .inl ((balloc2_size hb).symm.trans hs),fun hcan => ?_⟩
    rcases hcan with hs | ⟨-,hcan⟩
    · exact (balloc2_size hb).trans hs
    · cases (balloc2_reads hk hb).mpr (hcan.resolve_left hmod')
  case h_3 f1 hb =>
    cases h
    exact ⟨fun _ => .inr ⟨hmax,.inr ((balloc2_reads hk hb).mp rfl)⟩,fun _ => Int.toNat_natCast n⟩

/-- The bytes that `cluster_write` stores when the allocation fails at block `n`. -/
def Uio.stored (g : Geometry) (ans : Answers) (u : Uio) (n : Option ℕ) : ℤ :=
  ans.moved (u.resid-(max 0 (int32 u.resid)-u.allocated g n))

/-- Neither what is allocated nor what is stored goes behind the end of the file. -/
def Uio.Inside (g : Geometry) (ans : Answers) (f : File) (u : Uio) (n : Option ℕ) : Prop :=
  u.offset+u.stored g ans n≤f.size ∧ u.offset+u.allocated g n≤f.size

/-- The branch through the unified cache in terms of the block at which the allocation fails. -/
structure Clustered (g : Geometry) (ans : Answers) (io : Ioflag) (f : File) (u : Uio) (n : Option ℕ)
    (c : Branch) : Prop where
  bounds : 0≤u.stored g ans n ∧ u.stored g ans n≤u.resid
  allocated : 0≤u.allocated g n ∧ u.allocated g n≤u.resid
  stored : c.stored=u.stored g ans n
  calls : ∀ x,x∈c.calls ↔ ∃ i,u.before g i<u.allocated g n ∧ x=(u.offset+u.before g i,u.lbn g i)
  uio : c.uio=⟨u.offset+u.stored g ans n,u.resid-u.stored g ans n⟩
  error : c.error.isSome=true ↔ n.isSome=true ∨ ans.cluster.isSome=true
  all : c.error=none → u.stored g ans n=u.resid
  size : c.file.size=if int64 f.size<u.offset+u.stored g ans n then
      (u.offset+u.stored g ans n).toNat else max f.size (u.offset+u.allocated g n).toNat
  db : io.unit=true → ∀ q<12,c.file.db q≠0 ↔ f.db q≠0 ∨ u.Gets g n q

theorem int64_le (n : ℕ) : int64 n≤n := by
  rw [int64,Int.bmod_def]
  omega

theorem writeCluster_clustered {c : Branch} (hu : u.Valid) (h : writeCluster g ans io f u=.ok c) :
    ∃ n,FailsAt g f ans.balloc u n ∧ Clustered g ans io f u n c := by
  obtain ⟨l,f',hl,hs,rfl⟩ := writeCluster_inv h
  have h0 := hu.offset
  have hsum := hu.sum
  have hresid := hu.resid
  have h32 : int32 u.resid≤u.resid := int32_le hresid.le
  obtain ⟨n,hn,ha⟩ := alloc_spec h0 (by omega) hl
  refine ⟨n,hn,?_⟩
  have hsaved := ha.saved
  have hbounds := ha.bounds
  have hmoved : ans.moved (u.resid-l.saved)=u.stored g ans n := by
    rw [hsaved]
    rfl
  obtain ⟨hb0,hb1,hball⟩ := ans.moved_bounds (u.resid-l.saved) (by omega)
  rw [hmoved] at hs hb0 hb1 hball ⊢
  have hoff : int64 (u.offset+u.stored g ans n)=u.offset+u.stored g ans n :=
    int64_eq (by omega) (by omega)
  rw [hoff] at hs ⊢
  obtain ⟨hsz,hdb⟩ := settle_size hs
  refine ⟨⟨hb0,by omega⟩,⟨by omega,by omega⟩,rfl,ha.calls,?_,?_,?_,?_,?_⟩
  · exact congrArg (Uio.mk _) (by ring)
  · change ((ans.cluster.map Prod.snd).or l.error).isSome=true ↔ _
    rw [Option.isSome_or,Option.isSome_map,Bool.or_eq_true,ha.error,or_comm]
  · intro hnone
    rw [Option.or_eq_none_iff,Option.map_eq_none_iff] at hnone
    have hsaved0 : l.saved=0 := by rw [Round.saved,hnone.2]; rfl
    have := hball hnone.1
    omega
  · change f'.size=_
    rw [hsz,uint64_eq (by omega) (by omega),ha.size]
    split
    · rfl
    case isFalse hend =>
      have hle : u.offset≤f.size := by linarith [int64_le f.size]
      split
      case isTrue hz => rw [hz,add_zero,max_eq_left (Int.toNat_le.mpr hle)]
      · rfl
  · intro hunit q hq
    rw [hdb hunit]
    exact ha.db q hq

/-- The size that a write of so many stored bytes at `offset` should leave. -/
def RightSize (io : Ioflag) (f : File) (offset : ℤ) (b : Branch) : Prop :=
  if b.error.isSome=true ∧ io.unit=true then b.file.size=f.size
  else b.file.size=if 0<b.stored then max f.size (offset+b.stored).toNat else f.size

/-- In terms of the block at which the allocation fails. -/
structure KeepsSize (g : Geometry) (ans : Answers) (io : Ioflag) (f : File) (u : Uio)
    (n : Option ℕ) : Prop where
  small : f.size<2^63
  undone : io.unit=true → n.isSome=true ∨ ans.cluster.isSome=true → u.Inside g ans f n ∨
    CanCut g ans.undo.balloc f.size (f.db (f.size/g.blocksize)≠0 ∨ u.Gets g n (f.size/g.blocksize))
  unsynced : io.unit=true → n=none → ans.cluster=none → io.sync=true → 0 < int32 u.resid →
    ans.update.isSome=true → u.offset+u.resid≤f.size
  partly : io.unit=false → n.isSome=true ∨ ans.cluster.isSome=true →
    0<u.stored g ans n ∧ f.size<u.offset+u.stored g ans n ∨ u.Inside g ans f n

namespace Clustered

variable {n : Option ℕ} {c : Branch} (h : Clustered g ans io f u n c) (hu : u.Valid)

include h hu

theorem size_lost (hbig : 2^63≤f.size) (hsize : f.size<2^64) : c.file.size<2^63 := by
  have hneg : int64 f.size<0 := by
    rw [int64,Int.bmod_def]
    omega
  have h0 := hu.offset
  have hsum := hu.sum
  have hb := h.bounds
  rw [h.size,if_pos (by omega)]
  omega

variable (hsmall : f.size<2^63)

include hsmall

omit hu in
theorem size_small : c.file.size=if f.size<u.offset+u.stored g ans n then
    (u.offset+u.stored g ans n).toNat else max f.size (u.offset+u.allocated g n).toNat := by
  have hosize : int64 f.size=f.size := int64_eq (Int.natCast_nonneg _) (by exact_mod_cast hsmall)
  rw [h.size,hosize]

theorem size_inside : c.file.size=f.size ↔ u.Inside g ans f n := by
  have h0 := hu.offset
  rw [h.size_small hsmall,Uio.Inside]
  split <;> omega

theorem size_partly : (c.file.size=if 0<u.stored g ans n then
      max f.size (u.offset+u.stored g ans n).toNat else f.size) ↔
    0<u.stored g ans n ∧ f.size<u.offset+u.stored g ans n ∨ u.Inside g ans f n := by
  have h0 := hu.offset
  rw [h.size_small hsmall,Uio.Inside]
  split <;> split <;> omega

theorem size_all (hall : u.stored g ans n=u.resid) :
    c.file.size=max f.size (u.offset+u.resid).toNat := by
  have h0 := hu.offset
  have ha := h.allocated
  rw [h.size_small hsmall,hall]
  split <;> omega

theorem size_undone {f' : File} {e : Option Error} (hunit : io.unit=true)
    (ht : c.file.truncate g ans.undo f.size=.ok (f',e)) :
    f'.size=f.size ↔ u.Inside g ans f n ∨ CanCut g ans.undo.balloc f.size
      (f.db (f.size/g.blocksize)≠0 ∨ u.Gets g n (f.size/g.blocksize)) := by
  have hb := h.bounds
  have ha := h.allocated
  have hsum := hu.sum
  have hsz := h.size_small hsmall
  have hle : f.size ≤ c.file.size := by
    rw [hsz]
    split <;> omega
  have hlt : c.file.size<2^63 := by
    rw [hsz]
    split <;> omega
  rw [truncate_back hle hlt ht,h.size_inside hu hsmall]
  apply or_congr_right
  -- what the pointer is matters only for a direct block
  apply and_congr_right
  intro _
  apply or_congr_right
  refine and_congr (forall_congr' fun hk => ?_) Iff.rfl
  rw [h.db hunit _ hk]

end Clustered

/-- A write through the unified cache leaves the right size exactly when the condition on the
request and the failures holds. -/
theorem write_size_iff (g : Geometry) (v : Vnode) (ans : Answers) (io : Ioflag) (f : File) (u : Uio)
    (n : Option ℕ) (b : Branch) (hubc : v.ubc=true) (hsize : f.size<2^64)
    (hu : (u.effective f io).Valid)
    (hperm : v.appendOnly=true → uint64 (u.effective f io).offset=f.size)
    (hn : FailsAt g f ans.balloc (u.effective f io) n)
    (hb : writeInternal g v ans io f u=some (.ok b)) :
    RightSize io f (u.effective f io).offset b ↔ KeepsSize g ans io f (u.effective f io) n := by
  have hresid : (u.effective f io).resid=u.resid := by
    unfold Uio.effective
    split <;> rfl
  have hbody : writeBody g v ans io f (u.effective f io)=.ok b := by
    unfold writeInternal at hb
    rw [if_neg (hresid ▸ hu.resid.ne'),if_neg (ne_true_of_eq_false (v.ubc_reg hubc))] at hb
    exact Option.some.inj ((if_neg fun hp => hp.2 (hperm hp.1)).symm.trans hb)
  generalize u.effective f io=u at *
  obtain ⟨c,hc,hstored,-,hcases⟩ := writeBody_inv hbody
  rw [if_pos hubc] at hc
  obtain ⟨n',hn',h⟩ := writeCluster_clustered hu hc
  obtain rfl := hn.unique hn'
  by_cases hbig : 2^63≤f.size
  · refine iff_of_false ?_ fun hk => absurd hk.small (not_lt.mpr hbig)
    have hlost := h.size_lost hu hbig hsize
    have hfile : b.file.size=c.file.size := by
      rcases hcases with ⟨-,-,-,-,e,ht⟩ | ⟨-,-,rfl⟩ | ⟨-,hf,-⟩
      · have hneg : int64 f.size<0 := by
          rw [int64,Int.bmod_def]
          omega
        rw [File.truncate,if_pos (.inl hneg)] at ht
        exact congrArg File.size (Prod.mk.inj (Except.ok.inj ht)).1.symm
      · rfl
      · rw [hf]
    unfold RightSize
    split
    · omega
    · split <;> omega
  rw [not_le] at hbig
  have hosize : int64 f.size=f.size := int64_eq (Int.natCast_nonneg _) (by exact_mod_cast hbig)
  rcases hcases with ⟨herr,hunit,hbe,-,e,ht⟩ | ⟨herr,hunit,rfl⟩ | ⟨hnone,hf,huio,hbe⟩
  · rw [hosize] at ht
    unfold RightSize
    rw [hbe,if_pos ⟨herr,hunit⟩,h.size_undone hu hbig hunit ht]
    refine ⟨fun hk => ⟨hbig,fun _ _ => hk,?_,?_⟩,fun hk => hk.undone hunit (h.error.mp herr)⟩
    · rintro - rfl hcl
      have hfail := h.error.mp herr
      rw [hcl] at hfail
      simp at hfail
    · intro hu'
      rw [hunit] at hu'
      cases hu'
  · unfold RightSize
    rw [if_neg (by simp [hunit]),h.stored,h.size_partly hu hbig]
    refine ⟨fun hk => ⟨hbig,?_,?_,fun _ _ => hk⟩,fun hk => hk.partly hunit (h.error.mp herr)⟩
    · intro hu'
      rw [hunit] at hu'
      cases hu'
    · intro hu'
      rw [hunit] at hu'
      cases hu'
  · have hall := h.all hnone
    have hfail : ¬(n.isSome=true ∨ ans.cluster.isSome=true) := by
      rw [← h.error,hnone]
      simp
    have hfree : n=none ∧ ans.cluster=none := by simpa using hfail
    have hleft : c.uio.resid=0 := by rw [h.uio,hall,sub_self]
    have hres := hu.resid
    unfold RightSize
    rw [hf,hstored,h.stored,h.size_all hu hbig hall,hall,if_pos hres,hbe,hleft]
    by_cases hsync : (if 0 < int32 u.resid ∧ io.sync=true then ans.update else none).isSome=true ∧
        io.unit=true
    · rw [if_pos hsync]
      obtain ⟨hup,hunit⟩ := hsync
      split at hup
      case isTrue hs =>
        refine ⟨fun hk => ⟨hbig,fun _ hx => absurd hx hfail,fun _ _ _ _ _ _ => by omega,
          fun _ hx => absurd hx hfail⟩,fun hk => ?_⟩
        have := hk.unsynced hunit hfree.1 hfree.2 hs.2 hs.1 hup
        omega
      · cases hup
    · rw [if_neg hsync]
      refine iff_of_true rfl ⟨hbig,fun _ hx => absurd hx hfail,?_,fun _ hx => absurd hx hfail⟩
      intro hunit _ _ hs hpos hup
      exact absurd ⟨by rwa [if_pos ⟨hpos,hs⟩],hunit⟩ hsync

theorem write_size_byte : ∃ b,
    writeInternal kilo regularFile nothingFails noFlags emptyFile ⟨0,1⟩=some (.ok b) ∧
      RightSize noFlags emptyFile 0 b := by
  have hrun : ((writeInternal kilo regularFile nothingFails noFlags emptyFile ⟨0,1⟩).bind
      Except.toOption).isSome=true := by decide +kernel
  obtain ⟨b,hb⟩ := Option.isSome_iff_exists.mp hrun
  obtain ⟨r,hr,hrb⟩ := Option.bind_eq_some_iff.mp hb
  cases r with
  | error e => cases hrb
  | ok b =>
    have hfails : FailsAt kilo emptyFile nothingFails.balloc ⟨0,1⟩ none := by
      intro k hk
      have hk0 : k=0 := by
        by_contra hne
        have hlt : (k : ℤ)*1024-0%1024<1 := by
          have := hk
          rwa [Uio.before,if_neg hne] at this
        omega
      subst hk0
      exact ⟨by decide,by decide,fun _ _ => by decide,fun _ => rfl⟩
    have hkeeps : KeepsSize kilo nothingFails noFlags emptyFile ⟨0,1⟩ none :=
      ⟨by decide,nofun,nofun,fun _ hx => by simp [nothingFails] at hx⟩
    exact ⟨b,hr,(write_size_iff kilo regularFile nothingFails noFlags emptyFile ⟨0,1⟩ none b rfl
      (by decide) ⟨by decide,by decide,by decide⟩
      (fun h => absurd h (by decide)) hfails hr).mpr hkeeps⟩

def diskFull : Answers := { nothingFails with balloc := fun _ => ⟨0,true,none⟩ }

/-- A write behind the end of the file that stores nothing makes the file larger. -/
theorem write_size_grown : ∃ b,
    writeInternal kilo regularFile diskFull noFlags emptyFile ⟨5000,10⟩=some (.ok b) ∧
      emptyFile.size=0 ∧ b.error=some .enospc ∧ b.stored=0 ∧ b.file.size=5000 ∧
      ¬RightSize noFlags emptyFile 5000 b := by
  have hrun : ((writeInternal kilo regularFile diskFull noFlags emptyFile ⟨5000,10⟩).bind
      Except.toOption).map (fun b => (b.error,b.stored,b.file.size))=
      some (some .enospc,0,5000) := by decide +kernel
  obtain ⟨b,hb,hf⟩ := Option.map_eq_some_iff.mp hrun
  obtain ⟨r,hr,hrb⟩ := Option.bind_eq_some_iff.mp hb
  cases r with
  | error e => cases hrb
  | ok c =>
    cases hrb
    simp only [Prod.mk.injEq] at hf
    obtain ⟨herr,hst,hsz⟩ := hf
    have hempty : emptyFile.size=0 := by decide
    refine ⟨b,hr,hempty,herr,hst,hsz,?_⟩
    unfold RightSize
    rw [if_neg (fun h => nomatch h.2),hst,if_neg (lt_irrefl 0),hsz,hempty]
    decide

end Ext2fsX.Files
