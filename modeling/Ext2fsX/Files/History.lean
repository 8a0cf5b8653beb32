import Ext2fsX.Directory.Format
import Ext2fsX.Files.Pointers

namespace Ext2fsX.Files

open Directory (dirRecLen)
open Framework
open Blocks (Geometry int32 kilo)

/-- `ext2_write`, `ext2_truncate`, the new block of `ext2_direnter`, `ext3_append`, and a block of
`ext2_pageout`. -/
inductive Op where
  | write (ans : Answers) (io : Ioflag) (u : Uio)
  | truncate (a : Truncation) (length : ℤ)
  | direnter (ans : Answers) (namelen : ℕ)
  | append (a : Balloc)
  | blkalloc (a : Balloc) (lbn size : ℕ)

variable (g : Geometry)

def roundup (size : ℕ) : ℕ := (size+g.blocksize-1)/g.blocksize*g.blocksize

variable (v : Vnode)

def direnter (ans : Answers) (namelen : ℕ) (f : File) :
    Option (Except Stop File) :=
  let u : Uio := ⟨int32 (roundup g f.size),dirRecLen namelen⟩
  (writeInternal g v ans ⟨false,true,false⟩ f u).map
    (.map fun b =>
      if b.error.isSome then b.file else { b.file with size := roundup g b.file.size })

def append (a : Balloc) (f : File) : Except Stop File :=
  (f.balloc2 g false a (int32 (f.size/g.blocksize : ℕ)) g.blocksize).map fun r =>
    if r.2.isSome then r.1 else { r.1 with size := uint64 (r.1.size+g.blocksize) }

def step (f : File) : Op → Option (Except Stop File)
  | .write ans io u =>
    if v.dir then none else (writeInternal g v ans io f u).map (.map Branch.file)
  | .truncate a length => some ((f.truncate g a length).map Prod.fst)
  | .direnter ans namelen => if v.dir ∧ namelen<256 then direnter g v ans namelen f else none
  | .append a => if v.dir then some (append g a f) else none
  | .blkalloc a lbn size =>
    -- `ext2_pageout` asks for blocks that begin in the file
    if v.ubc ∧ lbn*g.blocksize<f.size ∧ 0 < size ∧ size≤g.blocksize then
      some ((f.balloc2 g true a (int32 lbn) size).map Prod.fst)
    else none

def ofContents (c : Reuse.Contents) : File where
  db k := if h : k<15 then (c.block.get ⟨k,h⟩).toNat else 0
  size := c.size.toNat

def Loaded (f : File) : Prop :=
  ∃ env createmode ei,env.blocksize.toNat=g.blocksize ∧
    (if v.dir then Reuse.isDir else Reuse.isReg) (Reuse.ei2i env ei).mode=true ∧
    f=ofContents (Reuse.vget env createmode ei).contents

/-- The histories of one file, without concurrency. After a panic nothing follows. -/
def history : Machine (Except Stop File) Op where
  init s := ∃ f,Loaded g v f ∧ s=.ok f
  next op s := s.toOption.bind fun f => step g v f op

/-- The request with the offset that `IO_APPEND` gives it. -/
def Uio.effective (u : Uio) (f : File) (io : Ioflag) : Uio :=
  if io.append then { u with offset := int64 f.size } else u

/-- The size is a positive `off_t`, and every write that asks for bytes is a careful one. -/
structure Careful (s : Except Stop File) (op : Op) : Prop where
  size : ∀ f,s=.ok f → f.size<2^63
  write : ∀ f ans io u,s=.ok f → op=.write ans io u → u.resid≠0 →
    CarefulWrite ans io (u.effective f io)

variable {g : Geometry} {v : Vnode} {f : File}

theorem Loaded.covered (h : Loaded g v f) : Covered g f := by
  obtain ⟨env,createmode,ei,hbs,hmode,rfl⟩ := h
  have hkind : (Reuse.isDir (Reuse.ei2i env ei).mode || Reuse.isReg (Reuse.ei2i env ei).mode)=true := by
    rw [Bool.or_eq_true]
    split at hmode
    · exact .inl hmode
    · exact .inr hmode
  have hcontents : (Reuse.vget env createmode ei).contents=
      Reuse.clearUnused env (Reuse.ei2i env ei).contents := by
    unfold Reuse.vget
    dsimp only
    rw [if_pos hkind]
    split <;> rfl
  rw [hcontents]
  generalize (Reuse.ei2i env ei).contents=c
  intro k hk hne
  have hpos := blocksize_bounds g
  have hk15 : k<15 := by omega
  have hget : (Reuse.clearUnused env c).block.get ⟨k,hk15⟩=
      if Reuse.usedBlocks env c ≤ (k : ℤ) ∧ k<12 then 0 else c.block.get ⟨k,hk15⟩ :=
    Vector.getElem_ofFn hk15
  have hused : (k : ℤ)<Reuse.usedBlocks env c := by
    by_contra hle
    apply hne
    change (if h : k<15 then ((Reuse.clearUnused env c).block.get ⟨k,h⟩).toNat else 0)=0
    rw [dif_pos hk15,hget,if_pos ⟨not_lt.mp hle,hk⟩]
    rfl
  rw [Reuse.usedBlocks_eq env c (by omega),hbs] at hused
  have hlt : k<(c.size.toNat+g.blocksize-1)%2^64/g.blocksize := by
    have hle := hused.trans_le (int32_le (Int.natCast_nonneg _))
    exact_mod_cast hle
  have hmul := Nat.mul_le_of_le_div _ _ _ (Nat.succ_le_of_lt hlt)
  rw [Nat.succ_mul] at hmul
  change k*g.blocksize < c.size.toNat
  omega

/-- An entry of a directory so large that its end is no `doff_t` is refused. -/
theorem writeBuffers_negative (ans : Answers) {b : Branch} (n : ℕ) (hneg : b.uio.offset<0)
    (hresid : 0<b.uio.resid) (hlow : -2^31≤b.uio.offset) :
    writeBuffers g ans (n+1) 0 b=.ok { b with error := some .efbig } := by
  have hdiv : int32 (b.uio.offset/g.blocksize)<0 := by
    have hpos := blocksize_pos g
    have hq : b.uio.offset/g.blocksize<0 := Int.ediv_neg_of_neg_of_pos hneg hpos
    have hge : b.uio.offset ≤ b.uio.offset/g.blocksize :=
      Int.le_ediv_of_mul_le hpos (by nlinarith [blocksize_bounds g])
    rw [int32,Int.bmod_def]
    omega
  rw [writeBuffers,if_neg (not_le.mpr hresid)]
  dsimp only
  rw [File.balloc2,if_pos hdiv]

theorem roundup_le (g : Geometry) (size : ℕ) : size ≤ roundup g size := by
  have hpos := blocksize_bounds g
  have hdiv := Nat.div_add_mod (size+g.blocksize-1) g.blocksize
  have hmod := Nat.mod_lt (size+g.blocksize-1) (show 0<g.blocksize by omega)
  rw [Nat.mul_comm] at hdiv
  unfold roundup
  omega

theorem roundup_int32 (g : Geometry) (size : ℕ) :
    -2^31 ≤ int32 (roundup g size) ∧ int32 (roundup g size)<2^31 := by
  rw [int32,Int.bmod_def]
  omega

section

variable (hfs : g.fsize=g.blocksize)

include hfs

theorem step_write {ans : Answers} {io : Ioflag} {u : Uio}
    (hc : Covered g f) (hsize : f.size<2^63) (hdir : v.dir=false)
    (hu : u.resid≠0 → CarefulWrite ans io (u.effective f io)) :
    ∃ b,writeInternal g v ans io f u=some (.ok b) ∧ Covered g b.file := by
  unfold writeInternal
  by_cases h0 : u.resid=0
  · exact ⟨_,if_pos h0,hc⟩
  rw [if_neg h0,if_neg (ne_true_of_eq_false hdir)]
  by_cases hperm : v.appendOnly=true ∧ uint64 (u.effective f io).offset≠f.size
  · exact ⟨_,if_pos hperm,hc⟩
  · obtain ⟨b,hb,hcov⟩ := writeBody_ok hfs v ans io hc hsize (hu h0).valid
    exact ⟨b,(if_neg hperm).trans (congrArg some hb),hcov (hu h0).toCanUndo⟩

theorem writeBuffers_entry (ans : Answers) {offset : ℤ} {size : ℕ}
    (hc : Covered g f) (hsize : f.size<2^63) (hpos : 0 < size) (hle : size ≤ 264)
    (hlow : -2^31≤offset) (hhigh : offset<2^31) :
    ∃ b,writeBuffers g ans size 0 ⟨f,⟨offset,size⟩,none,0,[]⟩=.ok b ∧ Covered g b.file := by
  by_cases hneg : offset<0
  · obtain ⟨n,hn⟩ := Nat.exists_eq_add_of_lt hpos
    have hrun := writeBuffers_negative (g := g) ans (b := ⟨f,⟨offset,size⟩,none,0,[]⟩) n hneg
      (Int.natCast_pos.mpr hpos) hlow
    rw [Nat.zero_add] at hn
    rw [← hn] at hrun
    exact ⟨_,hrun,hc⟩
  · obtain ⟨b,hb,hcov,-⟩ := writeBuffers_ok hfs ans size 0 (b := ⟨f,⟨offset,size⟩,none,0,[]⟩) hc hsize
      (not_lt.mp hneg) (by change offset+(size : ℤ) < 2^63; omega)
    exact ⟨b,hb,hcov⟩

theorem direnter_ok (ans : Answers) {namelen : ℕ} (hc : Covered g f)
    (hsize : f.size<2^63) (hdir : v.dir=true) (hlen : namelen<256) :
    ∃ f',direnter g v ans namelen f=some (.ok f') ∧ Covered g f' := by
  have hubc : v.ubc=false := by
    by_contra h
    rw [v.ubc_reg (by simpa using h)] at hdir
    cases hdir
  have hrec : 0<dirRecLen namelen ∧ dirRecLen namelen ≤ 264 := by
    unfold dirRecLen
    omega
  obtain ⟨hlow,hhigh⟩ := roundup_int32 g f.size
  obtain ⟨b,hb,hcov⟩ := writeBuffers_entry hfs ans hc hsize hrec.1 hrec.2 hlow hhigh
  have hbody : ∃ b',writeInternal g v ans ⟨false,true,false⟩ f
      ⟨int32 (roundup g f.size),dirRecLen namelen⟩=some (.ok b') ∧ b'.file=b.file := by
    unfold writeInternal
    dsimp only
    rw [if_neg (by omega),if_pos hdir,if_pos rfl]
    unfold writeBody
    rw [hubc,if_neg Bool.false_ne_true,Int.toNat_natCast,hb]
    dsimp only
    split
    · exact ⟨b,rfl,rfl⟩
    · split
      · exact ⟨_,rfl,rfl⟩
      · exact ⟨_,rfl,rfl⟩
  obtain ⟨b',hb',hfile⟩ := hbody
  unfold direnter
  dsimp only
  rw [hb']
  refine ⟨_,rfl,?_⟩
  beta_reduce
  split
  · rwa [hfile]
  · rw [hfile]
    exact hcov.mono (.refl b.file) (roundup_le g b.file.size)

theorem append_ok (a : Balloc) (hc : Covered g f)
    (hsize : f.size<2^63) : ∃ f',append g a f=.ok f' ∧ Covered g f' := by
  have hbounds := blocksize_bounds g
  obtain ⟨f',e,hok,hsz,hdb⟩ := balloc2_ok hfs false a
    (hc.fits (int32 (f.size/g.blocksize : ℕ))) (show 0<g.blocksize by omega) le_rfl
  unfold append
  rw [hok]
  refine ⟨_,rfl,?_⟩
  cases e with
  | some e =>
    exact hc.mono (fun k hk => (hdb k hk).resolve_right fun h => nomatch h.2) hsz.ge
  | none =>
    change Covered g { f' with size := uint64 (f'.size+g.blocksize) }
    rw [uint64_eq (by omega) (by omega)]
    refine hc.written (x := f.size) (fun k hk => (hdb k hk).imp_right And.left) ?_ ?_ ?_
    · intro k hk
      apply start_le_of_int32 (Int.natCast_nonneg _)
      exact_mod_cast hk
    · omega
    · omega

theorem blkalloc_ok (a : Balloc) {lbn size : ℕ} (hc : Covered g f)
    (hlbn : lbn*g.blocksize<f.size) (h0 : 0 < size) (hle : size ≤ g.blocksize) :
    ∃ r,f.balloc2 g true a (int32 lbn) size=.ok r ∧ Covered g r.1 := by
  obtain ⟨f',e,hok,hsz,hdb⟩ := balloc2_ok hfs true a (hc.fits (int32 lbn)) h0 hle
  refine ⟨_,hok,?_⟩
  intro k hk hne
  rw [hsz]
  rcases hdb k hne with hold | ⟨hnew,-⟩
  · exact hc k hk hold
  · have hkl : k ≤ lbn := by
      have := int32_le (Int.natCast_nonneg lbn)
      omega
    exact (Nat.mul_le_mul_right g.blocksize hkl).trans_lt hlbn

theorem step_covered {op : Op} {s : Except Stop File} (hc : Covered g f)
    (hop : Careful (.ok f) op) (hs : step g v f op=some s) :
    ∃ f',s=.ok f' ∧ Covered g f' := by
  have hsize := hop.size f rfl
  cases op with
  | write ans io u =>
    by_cases hdir : v.dir=true
    · rw [step,if_pos hdir] at hs
      cases hs
    rw [step,if_neg hdir] at hs
    obtain ⟨b,hb,hcov⟩ := step_write hfs hc hsize (by simpa using hdir)
      (hop.write f ans io u rfl rfl)
    rw [hb] at hs
    cases hs
    exact ⟨_,rfl,hcov⟩
  | truncate a length =>
    obtain ⟨f',e,hr,ht⟩ := truncate_ok hfs hsize a length fun _ => hc
    rw [step,hr] at hs
    cases hs
    exact ⟨_,rfl,ht.covered hc⟩
  | direnter ans namelen =>
    by_cases hdir : v.dir=true ∧ namelen<256
    · obtain ⟨f',hf',hcov⟩ := direnter_ok hfs ans hc hsize hdir.1 hdir.2
      rw [step,if_pos hdir,hf'] at hs
      cases hs
      exact ⟨_,rfl,hcov⟩
    · rw [step,if_neg hdir] at hs
      cases hs
  | append a =>
    by_cases hdir : v.dir=true
    · obtain ⟨f',hf',hcov⟩ := append_ok hfs a hc hsize
      rw [step,if_pos hdir,hf'] at hs
      cases hs
      exact ⟨_,rfl,hcov⟩
    · rw [step,if_neg hdir] at hs
      cases hs
  | blkalloc a lbn size =>
    by_cases hok : v.ubc=true ∧ lbn*g.blocksize<f.size ∧ 0 < size ∧ size ≤ g.blocksize
    · obtain ⟨r,hr,hcov⟩ := blkalloc_ok hfs a hc hok.2.1 hok.2.2.1 hok.2.2.2
      rw [step,if_pos hok,hr] at hs
      cases hs
      exact ⟨_,rfl,hcov⟩
    · rw [step,if_neg hok] at hs
      cases hs

end

/-- In every history of careful steps there is no panic and every direct pointer that is set lies in
the file. -/
theorem pointers_covered (g : Geometry) (hfs : g.fsize=g.blocksize) (v : Vnode)
    (s : Except Stop File) (h : (history g v).Reach Careful s) : ∃ f,s=.ok f ∧ Covered g f := by
  induction h with
  | start h0 =>
    obtain ⟨f,hf,rfl⟩ := h0
    exact ⟨f,rfl,hf.covered⟩
  | step _ hok hn ih =>
    obtain ⟨f,rfl,hc⟩ := ih
    exact step_covered hfs hc hok hn

def regularFile : Vnode := ⟨false,true,false,fun _ => rfl⟩

def emptyFile : File := ofContents (Reuse.vget Reuse.sampleEnv 0 (Reuse.sizedSlot 0 0)).contents

theorem loaded_empty : Loaded kilo regularFile emptyFile :=
  ⟨Reuse.sampleEnv,0,Reuse.sizedSlot 0 0,by decide,by decide,rfl⟩

def noFlags : Ioflag := ⟨false,false,false⟩

def nothingFails : Answers where
  balloc k := ⟨5+k,true,none⟩
  avail _ := 1024
  uiomove _ := none
  cluster := none
  cut := ⟨⟨9,true,none⟩,none⟩
  undo := ⟨⟨9,true,none⟩,none⟩
  update := none

/-- `cluster_write` fails after 10 bytes, and the block that the file ends in cannot be read. -/
def diskFails : Answers :=
  { nothingFails with cluster := some (10,.eio), cut := ⟨⟨9,false,none⟩,none⟩ }

theorem pointers_covered_byte : ∃ f,(history kilo regularFile).exec
    [.write nothingFails noFlags ⟨0,1⟩] (.ok emptyFile)=some (.ok f) ∧ Covered kilo f := by
  obtain ⟨s,hs⟩ := Option.isSome_iff_exists.mp (show ((history kilo regularFile).exec
    [.write nothingFails noFlags ⟨0,1⟩] (.ok emptyFile)).isSome=true by decide +kernel)
  have hcareful : Careful (.ok emptyFile) (.write nothingFails noFlags ⟨0,1⟩) := by
    refine ⟨?_,?_⟩
    · rintro f ⟨⟩
      decide
    · rintro f ans io u ⟨⟩ ⟨⟩ -
      exact ⟨⟨nofun,nofun⟩,⟨by decide,by decide,by decide⟩⟩
  have hstart : (history kilo regularFile).Reach Careful (.ok emptyFile) :=
    .start ⟨emptyFile,loaded_empty,rfl⟩
  have hmeets : (history kilo regularFile).Meets Careful
      [.write nothingFails noFlags ⟨0,1⟩] (.ok emptyFile) := ⟨hcareful,fun _ _ => trivial⟩
  have hreach := hstart.exec hmeets hs
  obtain ⟨f,rfl,hc⟩ := pointers_covered kilo rfl regularFile s hreach
  exact ⟨f,hs,hc⟩

/-- A failed write leaves a pointer behind the end, and the next write there panics. -/
theorem pointers_uncovered :
    Loaded kilo regularFile emptyFile ∧
    (∃ f,(history kilo regularFile).exec
      [.write diskFails noFlags ⟨1000,50⟩] (.ok emptyFile)=some (.ok f) ∧ ¬Covered kilo f) ∧
    (history kilo regularFile).exec
      [.write diskFails noFlags ⟨1000,50⟩,.truncate ⟨⟨9,true,none⟩,none⟩ 1024,
        .write nothingFails noFlags ⟨1024,1⟩] (.ok emptyFile)=some (.error .wrong) := by
  refine ⟨loaded_empty,?_,?_⟩
  · have hrun : ((history kilo regularFile).exec [.write diskFails noFlags ⟨1000,50⟩]
        (.ok emptyFile)).map (·.toOption.map fun f => (f.size,f.db 1))=some (some (1010,6)) := by
      decide +kernel
    obtain ⟨s,hs,hf⟩ := Option.map_eq_some_iff.mp hrun
    cases s with
    | error e => cases hf
    | ok f =>
      obtain ⟨hsize,hdb⟩ := Prod.mk.inj (Option.some.inj hf)
      refine ⟨f,hs,fun hc => ?_⟩
      have hlt := hc 1 (by decide) (by rw [hdb]; decide)
      rw [hsize] at hlt
      exact absurd hlt (by decide)
  · have hrun : ((history kilo regularFile).exec
        [.write diskFails noFlags ⟨1000,50⟩,.truncate ⟨⟨9,true,none⟩,none⟩ 1024,
          .write nothingFails noFlags ⟨1024,1⟩] (.ok emptyFile)).map (·.toOption.isNone)=
        some true := by decide +kernel
    obtain ⟨s,hs,hf⟩ := Option.map_eq_some_iff.mp hrun
    cases s with
    | ok f => cases hf
    | error e =>
      exact hs

end Ext2fsX.Files
