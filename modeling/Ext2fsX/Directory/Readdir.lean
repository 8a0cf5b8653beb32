import Ext2fsX.Directory.Calls

namespace Ext2fsX.Directory

open Framework Record

/-- The table has eight entries, and index 8 passes the test: `past` is the byte behind it. -/
def fttodt (past ft : UInt8) : UInt8 :=
  if 8<ft.toNat then 0 else [0,8,4,2,6,1,12,10,past].getD ft.toNat 0

/-- `struct dirent`; behind the name there are zeros up to `reclen`. -/
structure Dirent where
  fileno : ℕ
  reclen : ℕ
  type : UInt8
  name : List UInt8

def dirsiz (namlen : ℕ) : ℕ := 8+(namlen+1+3)/4*4

def dirent (past : UInt8) (r : Record) : Dirent :=
  ⟨r.inode,dirsiz r.name.length,fttodt past r.fileType,r.name⟩

/-- The entries moved out, `dp` and whether the loop ended with `EIO`. -/
structure Filled where
  out : List Dirent
  dp : ℕ
  error : Bool

/-- The loop of `ext2_readdir`. Offsets count from the start of the directory. -/
def fill (past : UInt8) (m : Bytes) (edp : ℕ) : ℕ → ℕ → ℕ → Filled
  | 0,dp,_ => ⟨[],dp,false⟩
  | n+1,dp,resid =>
    if 0 < resid ∧ dp<edp then
      let r := readRecord m dp
      let e := dirent past r
      if 0 < r.recLen then
        if e.reclen ≤ resid then
          let x := fill past m edp n (dp+r.recLen) (resid-e.reclen)
          { x with out := e::x.out }
        else ⟨[],dp,false⟩
      else ⟨[],dp,true⟩
    else ⟨[],dp,false⟩

/-- `count` is an `int`: it holds the residual count modulo 2^32. -/
def readCount (cfg : Config) (startoffset resid : ℕ) : ℤ :=
  let count := (resid : ℤ).bmod 4294967296
  let count := (count-(startoffset+count)%cfg.blocksize).bmod 4294967296
  if count≤0 then count+cfg.blocksize else count

structure Reading where
  out : List Dirent
  offset : ℕ
  eof : Bool
  error : Bool

/-- `ext2_readdir` of a directory without an index; `heap` is what the allocated buffer held. For a
negative count there is no buffer, and the call ends in an error. -/
def readdir (cfg : Config) (past : UInt8) (heap : Bytes) (d : Dir) (startoffset resid : ℕ) :
    Reading :=
  if d.size ≤ startoffset then ⟨[],startoffset,true,false⟩
  else if readCount cfg startoffset resid<0 then ⟨[],startoffset,false,true⟩
  else
    let readcnt := min (readCount cfg startoffset resid).toNat (d.size-startoffset)
    let dirbuf : Bytes := fun i =>
      if startoffset ≤ i ∧ i < startoffset+readcnt then d.data i else heap i
    let x := fill past dirbuf (startoffset+readcnt) readcnt startoffset resid
    ⟨x.out,x.dp,decide (d.size≤x.dp),x.error⟩

/-- One reader, who passes each offset back; call `k` has a buffer of `sizes k` bytes. -/
def listing (cfg : Config) (past : UInt8) (heap : ℕ → Bytes) (d : Dir) (sizes : ℕ → ℕ) :
    ℕ → Reading
  | 0 => ⟨[],0,false,false⟩
  | k+1 =>
    let s := listing cfg past heap d sizes k
    let r := readdir cfg past (heap k) d s.offset (sizes k)
    { r with out := s.out++r.out }

theorem dirsiz_bounds {r : Record} (h : r.name.length<256) (past : UInt8) :
    0<(dirent past r).reclen ∧ (dirent past r).reclen≤264 := by
  change 0<dirsiz r.name.length ∧ dirsiz r.name.length≤264
  unfold dirsiz
  omega

variable {cfg : Config} {past : UInt8}

theorem fill_tiles {m : Bytes} {edp n dp resid : ℕ} {rs : List Record}
    (h : Tiles recLen (readRecord m) (Record.Ok cfg) dp rs)
    (he : dp+total recLen rs=edp) (hn : rs.length≤n) :
    ∃ xs ys,rs=xs++ys ∧ fill past m edp n dp resid=⟨xs.map (dirent past),dp+total recLen xs,false⟩ ∧
      (xs=[] → ∀ r∈rs.head?,resid<(dirent past r).reclen) := by
  induction rs generalizing n dp resid with
  | nil =>
    have hstop : ¬(0 < resid ∧ dp<edp) := by
      rw [total_nil] at he
      omega
    refine ⟨[],[],rfl,?_,nofun⟩
    cases n with
    | zero => rfl
    | succ n => rw [fill,if_neg hstop]; rfl
  | cons r rs ih =>
    obtain ⟨hr,hok,htiles⟩ := h
    rw [total_cons] at he
    obtain ⟨n,rfl⟩ : ∃ k,n=k+1 := ⟨n-1,by simp at hn; omega⟩
    have hpos := hok.pos
    have hname : r.name.length<256 := hr ▸ readRecord_name_lt m dp
    by_cases hfit : (dirent past r).reclen ≤ resid
    · have hgo : 0 < resid ∧ dp<edp := by
        have hb := (dirsiz_bounds hname past).1
        omega
      obtain ⟨xs,ys,rfl,hfill,_⟩ := @ih n (dp+r.recLen) (resid-(dirent past r).reclen) htiles
        (by omega) (by simpa using hn)
      refine ⟨r::xs,ys,rfl,?_,nofun⟩
      rw [fill,if_pos hgo]
      simp only [hr]
      rw [if_pos hpos,if_pos hfit,hfill,total_cons]
      simp only [List.map_cons,Nat.add_assoc]
    · refine ⟨[],r::rs,rfl,?_,?_⟩
      · rw [fill]
        split
        · simp only [hr]
          rw [if_pos hpos,if_neg hfit]
          rfl
        · rfl
      · intro _ q hq
        obtain rfl := Option.some.inj hq
        omega

theorem readCount_spec (cfg : Config) (start : ℕ) {count : ℕ} (h : 0 < count) (hint : count<2147483648) :
    ∃ n : ℕ,readCount cfg start count=n ∧ 0 < n ∧ cfg.blocksize ∣ start+n := by
  have hb := cfg.blocksize_bounds
  have hlt := Nat.mod_lt (start+count) (show 0 < cfg.blocksize by omega)
  have hle := Nat.mod_le (start+count) cfg.blocksize
  have hdvd : cfg.blocksize ∣ start+count-(start+count)%cfg.blocksize := Nat.dvd_sub_mod _
  have hcount : (count : ℤ).bmod 4294967296=count := by
    apply Int.bmod_eq_of_le <;> omega
  have hmod : ((start : ℤ)+(count : ℤ))%(cfg.blocksize : ℤ)=((start+count)%cfg.blocksize : ℕ) := by
    simp
  have hdiff : ((count : ℤ)-((start+count)%cfg.blocksize : ℕ)).bmod 4294967296=
      count-((start+count)%cfg.blocksize : ℕ) := by
    apply Int.bmod_eq_of_le <;> omega
  unfold readCount
  dsimp only
  rw [hcount,hmod,hdiff]
  split
  · refine ⟨count+cfg.blocksize-(start+count)%cfg.blocksize,by omega,by omega,?_⟩
    have he : start+(count+cfg.blocksize-(start+count)%cfg.blocksize)=
        start+count-(start+count)%cfg.blocksize+cfg.blocksize := by omega
    rw [he]
    exact Nat.dvd_add hdvd (Nat.dvd_refl _)
  · refine ⟨count-(start+count)%cfg.blocksize,by omega,by omega,?_⟩
    have he : start+(count-(start+count)%cfg.blocksize)=
        start+count-(start+count)%cfg.blocksize := by omega
    rw [he]
    exact hdvd

theorem Tiles.total_eq_zero {rd : ℕ → Record} {o : ℕ} {rs : List Record}
    (h : Tiles recLen rd (Record.Ok cfg) o rs) : total recLen rs=0 ↔ rs=[] := by
  cases rs with
  | nil => simp
  | cons r rs =>
    have hpos := h.2.1.pos
    simp
    omega

/-- A call that starts at a record moves out at least one, and says whether any is left. -/
theorem readdir_step {d : Dir} {xs ys : List Record} (hl : Layout cfg d (xs++ys)) (hne : ys≠[])
    (heap : Bytes) {resid : ℕ} (hr : 264 ≤ resid) (hint : resid<2147483648) :
    ∃ zs ws,ys=zs++ws ∧ zs≠[] ∧ readdir cfg past heap d (total recLen xs) resid=
        ⟨zs.map (dirent past),total recLen (xs++zs),decide (ws=[]),false⟩ := by
  have hsize := hl.size_eq
  rw [total_append] at hsize
  have hys := ((tiles_append 0 xs ys).mp hl.tiles).2
  rw [Nat.zero_add] at hys
  have hpos : total recLen ys≠0 := fun h0 => hne ((Tiles.total_eq_zero hys).mp h0)
  obtain ⟨n,hn,hcount,hdvd⟩ := readCount_spec cfg (total recLen xs) (show 0 < resid by omega) hint
  let readcnt := min n (d.size-total recLen xs)
  have hend : cfg.blocksize ∣ total recLen xs+readcnt := by
    by_cases hle : n≤d.size-total recLen xs
    · have he : readcnt=n := Nat.min_eq_left hle
      rw [he]
      exact hdvd
    · have he : total recLen xs+readcnt=d.size := by omega
      rw [he]
      exact hl.blocks
  -- the records that the buffer holds, and those that fit into the caller's
  obtain ⟨as,bs,rfl,has⟩ := hys.split (fun p r hok => hok.block) hend (Nat.le_add_right _ _)
    (by omega)
  let dirbuf : Bytes := fun i =>
    if total recLen xs ≤ i ∧ i<total recLen xs+readcnt then d.data i else heap i
  have hbuf : Tiles recLen (readRecord dirbuf) (Record.Ok cfg) (total recLen xs)
      as := by
    apply ((tiles_append _ as bs).mp hys).1.congr
    intro p r hp hlen hread hok
    have hfits := hok.fits
    have hb := dirRecLen_bounds r.name.length
    rw [←hread]
    apply readRecord_congr
    rw [hread]
    intro i h1 h2
    exact if_pos ⟨by omega,by omega⟩
  have hlen := hbuf.length_le (fun o r hok => hok.pos)
  obtain ⟨zs,ws,rfl,hfill,hstuck⟩ := @fill_tiles cfg past dirbuf _ readcnt _ resid as hbuf has
    (by omega)
  have hzs : zs≠[] := by
    rintro rfl
    have hws : ws≠[] := by
      rintro rfl
      simp only [List.append_nil,total_nil] at has
      omega
    obtain ⟨r,rs,rfl⟩ := List.exists_cons_of_ne_nil hws
    have hlt := hstuck rfl r rfl
    have hname : r.name.length<256 := hbuf.1 ▸ readRecord_name_lt dirbuf _
    have hb := (dirsiz_bounds hname past).2
    omega
  refine ⟨zs,ws++bs,by rw [List.append_assoc],hzs,?_⟩
  have hrest : Tiles recLen (readRecord d.data) (Record.Ok cfg)
      (total recLen xs+total recLen zs) (ws++bs) := by
    rw [List.append_assoc] at hys
    exact ((tiles_append _ zs (ws++bs)).mp hys).2
  have heof : decide (d.size≤total recLen xs+total recLen zs)=decide (ws++bs=[]) := by
    apply decide_eq_decide.mpr
    rw [←Tiles.total_eq_zero hrest]
    simp only [total_append] at hsize ⊢
    omega
  unfold readdir
  rw [if_neg (by omega),hn,if_neg (by omega),Int.toNat_natCast]
  change Reading.mk (fill past dirbuf (total recLen xs+readcnt) readcnt
    (total recLen xs) resid).out _ _ _=_
  rw [hfill,total_append]
  rw [heof]

variable {heap : ℕ → Bytes} {d : Dir} {sizes : ℕ → ℕ}

theorem listing_ends (hs : ∀ k,264 ≤ sizes k ∧ sizes k<2147483648) {xs ys : List Record} (hl : Layout cfg d (xs++ys))
    (hne : ys≠[]) {k : ℕ}
    (hk : (listing cfg past heap d sizes k).out=xs.map (dirent past) ∧
      (listing cfg past heap d sizes k).offset=total recLen xs) :
    ∃ n,k<n ∧ (listing cfg past heap d sizes n).eof=true ∧
      (∀ j,k<j → j<n → (listing cfg past heap d sizes j).eof=false) ∧
      ∀ j,k<j → j≤n → (listing cfg past heap d sizes j).error=false ∧
        ((listing cfg past heap d sizes j).eof=true ↔
          (listing cfg past heap d sizes j).out=(xs++ys).map (dirent past)) := by
  induction h : ys.length using Nat.strongRecOn generalizing xs ys k with
  | _ n ih =>
    obtain ⟨zs,ws,rfl,hzs,hcall⟩ := @readdir_step cfg past d xs ys hl hne (heap k) _
      (hs k).1 (hs k).2
    have hnext : listing cfg past heap d sizes (k+1)=
        ⟨(xs++zs).map (dirent past),total recLen (xs++zs),decide (ws=[]),false⟩ := by
      rw [listing,hk.1,hk.2,hcall,List.map_append]
    have hall : decide (ws=[])=true ↔
        (xs++zs).map (dirent past)=(xs++(zs++ws)).map (dirent past) := by
      rw [decide_eq_true_iff]
      constructor
      · rintro rfl
        rw [List.append_nil]
      · intro he
        have hlen := congrArg List.length he
        simp only [List.length_map,List.length_append] at hlen
        exact List.length_eq_zero_iff.mp (by omega)
    have hfirst : (listing cfg past heap d sizes (k+1)).error=false ∧
        ((listing cfg past heap d sizes (k+1)).eof=true ↔
          (listing cfg past heap d sizes (k+1)).out=(xs++(zs++ws)).map (dirent past)) := by
      rw [hnext]
      exact ⟨rfl,hall⟩
    by_cases hws : ws=[]
    · refine ⟨k+1,Nat.lt_succ_self k,?_,?_,?_⟩
      · rw [hnext]
        exact decide_eq_true hws
      · intro j hkj hj
        omega
      · intro j hkj hj
        obtain rfl : j=k+1 := by omega
        exact hfirst
    have hlt : ws.length<n := by
      have hz := List.length_pos_of_ne_nil hzs
      rw [List.length_append] at h
      omega
    rw [←List.append_assoc] at hl
    have hk' : (listing cfg past heap d sizes (k+1)).out=(xs++zs).map (dirent past) ∧
        (listing cfg past heap d sizes (k+1)).offset=total recLen (xs++zs) := by
      rw [hnext]
      exact ⟨rfl,rfl⟩
    obtain ⟨n,hkn,heof,hnot,hrest⟩ := ih ws.length hlt hl hws hk' rfl
    refine ⟨n,by omega,heof,?_,?_⟩
    · intro j hkj hj
      by_cases hj1 : j=k+1
      · rw [hj1,hnext]
        exact decide_eq_false hws
      · exact hnot j (by omega) hj
    · intro j hkj hj
      by_cases hj1 : j=k+1
      · rw [hj1]
        exact hfirst
      · rw [←List.append_assoc]
        exact hrest j (by omega) hj

theorem filter_dirent (past : UInt8) (rs : List Record) :
    ((rs.map (dirent past)).filter (fun e => e.fileno≠0)).map (fun e => (e.fileno,e.type,e.name))=
      (rs.filter Record.live).map (fun r => (r.inode,fttodt past r.fileType,r.name)) := by
  rw [List.filter_map,List.map_map]
  rfl

/-- With buffers of 264 to 2^31-1 bytes the calls end with the end of file, reported by the call that
moves out the last record; all records have then been listed in order, every live entry once. -/
theorem readdir_lists_all (cfg : Config) (past : UInt8) (heap : ℕ → Bytes) (d : Dir)
    (h : WellFormed cfg d) (sizes : ℕ → ℕ) (hs : ∀ k,264 ≤ sizes k ∧ sizes k<2147483648) :
    ∃ n,(listing cfg past heap d sizes n).eof=true ∧
      (∀ k<n,(listing cfg past heap d sizes k).eof=false) ∧
      (listing cfg past heap d sizes n).out=d.records.map (dirent past) ∧
      ((listing cfg past heap d sizes n).out.filter (fun e => e.fileno≠0)).map
          (fun e => (e.fileno,e.type,e.name))=
        (d.records.filter Record.live).map (fun r => (r.inode,fttodt past r.fileType,r.name)) ∧
      ∀ k,1≤k → k≤n → (listing cfg past heap d sizes k).error=false ∧
        ((listing cfg past heap d sizes k).eof=true ↔
          (listing cfg past heap d sizes k).out=d.records.map (dirent past)) := by
  by_cases hne : d.records=[]
  · have hz : d.size=0 := by
      have hsize := h.layout.size_eq
      rw [hne,total_nil] at hsize
      exact hsize.symm
    have hone : listing cfg past heap d sizes 1=⟨[],0,true,false⟩ := by
      simp [listing,readdir,hz]
    refine ⟨1,by rw [hone],?_,by rw [hone,hne]; rfl,by rw [hone,hne]; rfl,?_⟩
    · intro k hk
      obtain rfl : k=0 := by omega
      rfl
    · intro k h1 hk
      obtain rfl : k=1 := by omega
      rw [hone,hne]
      exact ⟨rfl,fun _ => rfl,fun _ => rfl⟩
  · have hl : Layout cfg d ([]++d.records) := h.layout
    obtain ⟨n,hn,heof,hnot,hrest⟩ := @listing_ends cfg past heap d sizes hs [] d.records hl hne
      0 ⟨rfl,rfl⟩
    have hall := ((hrest n hn (Nat.le_refl n)).2).mp heof
    refine ⟨n,heof,?_,hall,?_,fun k h1 hk => hrest k (by omega) hk⟩
    · intro k hk
      by_cases h0 : k=0
      · rw [h0]
        rfl
      · exact hnot k (by omega) hk
    · rw [hall]
      exact filter_dirent past d.records

theorem readdir_lists_small :
    ∃ n,(listing smallConfig 0 (fun _ _ => 0) smallDir (fun k => if k%2=0 then 264 else 300)
        n).out=smallDir.records.map (dirent 0) := by
  obtain ⟨n,_,_,hall,_⟩ := readdir_lists_all smallConfig 0 (fun _ _ => 0) smallDir
    smallDir_sound.wf (fun k => if k%2=0 then 264 else 300) (fun k => by split <;> omega)
  exact ⟨n,hall⟩

/-- With buffers of 2^31 bytes the count is negative, and no call moves anything out. -/
theorem readdir_negative_count :
    WellFormed smallConfig smallDir ∧ ∀ n,
      (listing smallConfig 0 (fun _ _ => 0) smallDir (fun _ => 2147483648) n).eof=false ∧
      (listing smallConfig 0 (fun _ _ => 0) smallDir (fun _ => 2147483648) n).out=[] ∧
      (listing smallConfig 0 (fun _ _ => 0) smallDir (fun _ => 2147483648) n).offset=0 := by
  refine ⟨smallDir_sound.wf,fun n => ?_⟩
  have hcall : readdir smallConfig 0 (fun _ => 0) smallDir 0 2147483648=⟨[],0,false,true⟩ := by
    unfold readdir
    rw [if_neg (by decide),if_pos (by decide)]
  induction n with
  | zero => exact ⟨rfl,rfl,rfl⟩
  | succ n ih =>
    obtain ⟨-,hout,hoff⟩ := ih
    rw [listing,hoff,hout,hcall]
    exact ⟨rfl,rfl,rfl⟩

end Ext2fsX.Directory
