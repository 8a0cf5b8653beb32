import Ext2fsX.Htree.AddDirent

namespace Ext2fsX.Htree

open Framework Directory Record

inductive Looked where
  | hit (de : ℕ)
  | bad
  | miss

/-- Its loop over the records of a leaf, from the one at `de` on. -/
def findInLeaf (cfg : Config) (m : Bytes) (name : List UInt8) : ℕ → ℕ → Looked
  | 0,_ => .miss
  | fuel+1,de =>
    if de+dirRecLen 0 < cfg.blocksize then
      let r := readRecord m de
      if r.hit name then if checkDirEntry cfg r de then .hit de else .bad
      else findInLeaf cfg m name fuel (de+r.recLen)
    else .miss

/-- `ext3_delete_entry` of the record at `del`, from the one at `i` on, with `pde` before it. -/
def deleteInLeaf (cfg : Config) (m : Bytes) (del : ℕ) : ℕ → ℕ → Option ℕ → Option Bytes
  | 0,_,_ => none
  | fuel+1,i,pde =>
    if i < cfg.blocksize then
      let r := readRecord m i
      if !checkDirEntry cfg r i then none
      else if i=del then
        some (match pde with
          | some p => m.store (p+4) (Bytes.enc16 ((readRecord m p).recLen+r.recLen))
          | none => m.store i (Bytes.enc32 0))
      else deleteInLeaf cfg m del fuel (i+r.recLen) (some i)
    else none

variable {cfg : Config} {m : Bytes} {rs : List Record}

def leafDir (cfg : Config) (m : Bytes) : Dir :=
  { freshDir [] with data := m, size := cfg.blocksize }

theorem leaf_iff_layout : Leaf cfg m rs ↔ Layout cfg (leafDir cfg m) rs :=
  ⟨fun h => ⟨h.tiles,h.total_eq,Nat.dvd_refl _⟩,fun h => ⟨h.tiles,h.size_eq⟩⟩

variable {r : Record}

theorem checkDirEntry_of_ok {o : ℕ} (h : Record.Ok cfg o r) (ho : o < cfg.blocksize) : checkDirEntry cfg r o=true := by
  have hb := dirbadentry_of_ok h
  rw [Nat.mod_eq_of_lt ho] at hb
  unfold checkDirEntry
  rw [hb]
  simp

theorem findInLeaf_from {name : List UInt8} {de fuel : ℕ}
    (ht : Tiles recLen (readRecord m) (Record.Ok cfg) de rs)
    (hsize : de+total recLen rs=cfg.blocksize) (hf : rs.length≤fuel) :
    (∃ pre r post,FirstHit name rs pre r post ∧
      findInLeaf cfg m name fuel de=.hit (de+total recLen pre)) ∨
    ((∀ r∈rs,r.hit name=false) ∧ findInLeaf cfg m name fuel de=.miss) := by
  induction rs generalizing de fuel with
  | nil =>
    right
    refine ⟨nofun,?_⟩
    rw [total_nil] at hsize
    cases fuel with
    | zero => rfl
    | succ fuel => rw [findInLeaf,if_neg (by omega)]
  | cons r rs ih =>
    obtain ⟨h1,h2,h3⟩ := ht
    rw [total_cons] at hsize
    have hmin := h2.min
    rw [dirRecLen_one] at hmin
    obtain ⟨fuel,rfl⟩ : ∃ f,fuel=f+1 := ⟨fuel-1,by simp at hf; omega⟩
    have h8 : dirRecLen 0=8 := rfl
    rw [findInLeaf,if_pos (by omega),h1]
    dsimp only
    cases hh : r.hit name with
    | true =>
      left
      refine ⟨[],r,rs,⟨rfl,hh,nofun⟩,?_⟩
      rw [checkDirEntry_of_ok h2 (by omega)]
      rfl
    | false =>
      rcases ih h3 (by omega) (by simpa using hf) with ⟨pre,q,post,⟨he,hq,hfirst⟩,hfound⟩ | ⟨hno,hmiss⟩
      · left
        refine ⟨r::pre,q,post,⟨by rw [he]; rfl,hq,?_⟩,?_⟩
        · exact List.forall_mem_cons.mpr ⟨hh,hfirst⟩
        · rw [if_neg Bool.false_ne_true,hfound,total_cons,Nat.add_assoc]
      · right
        refine ⟨List.forall_mem_cons.mpr ⟨hh,hno⟩,?_⟩
        rw [if_neg Bool.false_ne_true,hmiss]

theorem Leaf.length_le (hl : Leaf cfg m rs) : rs.length ≤ cfg.blocksize := by
  rw [← hl.total_eq]
  exact hl.tiles.length_le (fun _ _ hr => hr.pos)

theorem Leaf.find (hl : Leaf cfg m rs) (name : List UInt8) :
    (∃ pre r post,FirstHit name rs pre r post ∧
      findInLeaf cfg m name cfg.blocksize 0=.hit (total recLen pre)) ∨
    ((∀ r∈rs,r.hit name=false) ∧ findInLeaf cfg m name cfg.blocksize 0=.miss) := by
  have hf := @findInLeaf_from cfg m rs name 0 cfg.blocksize hl.tiles
    (by rw [hl.total_eq,Nat.zero_add]) hl.length_le
  simpa using hf

variable {pre post : List Record}

theorem deleteInLeaf_from {i fuel : ℕ} {pde : Option ℕ}
    (ht : Tiles recLen (readRecord m) (Record.Ok cfg) i (pre++r::post))
    (hsize : i+total recLen (pre++r::post)=cfg.blocksize) (hf : pre.length<fuel) :
    deleteInLeaf cfg m (i+total recLen pre) fuel i pde=
      some (match lastSpot recLen (pde.getD 0) i pre,pde.isSome || pre≠[] with
        | p,true => m.store (p+4) (Bytes.enc16 ((readRecord m p).recLen+r.recLen))
        | _,false => m.store i (Bytes.enc32 0)) := by
  induction pre generalizing i fuel pde with
  | nil =>
    obtain ⟨h1,h2,-⟩ := ht
    rw [List.nil_append,total_cons] at hsize
    have hpos := h2.pos
    obtain ⟨fuel,rfl⟩ : ∃ f,fuel=f+1 := ⟨fuel-1,by simp at hf; omega⟩
    rw [deleteInLeaf,if_pos (by omega),h1,total_nil,Nat.add_zero]
    dsimp only
    rw [checkDirEntry_of_ok h2 (by omega)]
    cases pde with
    | _ => simp [lastSpot]
  | cons q pre ih =>
    obtain ⟨h1,h2,h3⟩ := ht
    rw [List.cons_append,total_cons] at hsize
    have hpos := h2.pos
    obtain ⟨fuel,rfl⟩ : ∃ f,fuel=f+1 := ⟨fuel-1,by omega⟩
    rw [deleteInLeaf,if_pos (by omega),h1,total_cons]
    dsimp only
    rw [checkDirEntry_of_ok h2 (by omega),if_neg (by simp),if_neg (by omega),← Nat.add_assoc,
      ih h3 (by omega) (by simpa using hf)]
    simp [lastSpot]

def Uniform (len : ℕ) (rs : List Record) : Prop :=
  ∀ r∈rs,len ≤ r.recLen ∧ (r.live=true → dirRecLen r.name.length=len)

variable {len : ℕ}

theorem uniform_append {xs ys : List Record} :
    Uniform len (xs++ys) ↔ Uniform len xs ∧ Uniform len ys :=
  List.forall_mem_append

theorem uniform_cons {ys : List Record} : Uniform len (r::ys) ↔
      (len ≤ r.recLen ∧ (r.live=true → dirRecLen r.name.length=len)) ∧ Uniform len ys :=
  List.forall_mem_cons

def removed (pre : List Record) (r : Record) (post : List Record) : List Record :=
  match pre.getLast? with
  | some p => pre.dropLast++{ p with recLen := p.recLen+r.recLen }::post
  | none => { r with inode := 0 }::post

theorem removed_concat (init : List Record) (p r : Record) (post : List Record) :
    removed (init++[p]) r post=init++{ p with recLen := p.recLen+r.recLen }::post := by
  simp [removed]

theorem entriesOf_removed (pre : List Record) (r : Record) (post : List Record) :
    entriesOf (removed pre r post)=entriesOf pre++entriesOf post := by
  rcases List.eq_nil_or_concat pre with rfl | ⟨init,p,rfl⟩
  · rfl
  · rw [List.concat_eq_append,removed_concat,entriesOf_append,entriesOf_append,entriesOf_cons,
      entriesOf_cons,List.append_assoc,List.append_assoc]
    rfl

theorem uniform_removed (hu : Uniform len (pre++r::post)) : Uniform len (removed pre r post) := by
  obtain ⟨hpre,hr⟩ := uniform_append.mp hu
  obtain ⟨hr,hpost⟩ := uniform_cons.mp hr
  rcases List.eq_nil_or_concat pre with rfl | ⟨init,p,rfl⟩
  · exact uniform_cons.mpr ⟨⟨hr.1,by simp [Record.live]⟩,hpost⟩
  rw [List.concat_eq_append] at hpre ⊢
  obtain ⟨hinit,hp⟩ := uniform_append.mp hpre
  obtain ⟨hp,-⟩ := uniform_cons.mp hp
  rw [removed_concat]
  refine uniform_append.mpr ⟨hinit,uniform_cons.mpr ⟨⟨?_,hp.2⟩,hpost⟩⟩
  exact Nat.le_trans hp.1 (Nat.le_add_right _ _)

theorem Leaf.delete (hl : Leaf cfg m (pre++r::post)) :
    ∃ m',deleteInLeaf cfg m (total recLen pre) cfg.blocksize 0 none=some m' ∧
      Leaf cfg m' (removed pre r post) := by
  have hlen := hl.length_le
  have htot := hl.total_eq
  have hd := @deleteInLeaf_from cfg m r pre post 0 cfg.blocksize none hl.tiles
    (by rw [htot,Nat.zero_add]) (by simp at hlen; omega)
  rw [Nat.zero_add] at hd
  refine ⟨_,hd,?_⟩
  have hlay := leaf_iff_layout.mp hl
  rcases List.eq_nil_or_concat pre with rfl | ⟨init,p,rfl⟩
  · exact leaf_iff_layout.mpr (@Layout.clear cfg _ [] post r hlay 0 rfl)
  rw [List.concat_eq_append] at hlay htot ⊢
  rw [removed_concat]
  have hp := (@Layout.record_ok cfg _ (init++[p]) post r hlay).2.1.pos
  have hblock : total recLen (init++[p])%cfg.blocksize≠0 := by
    have h0 : 0<total recLen (init++[p]) := by
      have hp' : Layout cfg (leafDir cfg m) (init++p::(r::post)) := by simpa using hlay
      have := hp'.record_ok.2.1.pos
      rw [total_append,total_cons]
      omega
    rw [total_append,total_cons] at htot
    rw [Nat.mod_eq_of_lt (by omega)]
    omega
  have hm := hlay.merge hblock rfl rfl
  rw [lastSpot_concat,Nat.zero_add]
  simp only [Option.isSome_none,Bool.false_or,ne_eq,List.append_eq_nil_iff,
    List.cons_ne_self,and_false,not_false_eq_true,decide_true]
  exact leaf_iff_layout.mpr hm

variable {d : Dentry}

theorem findRoom_from {de fuel : ℕ} (ht : Tiles recLen (readRecord m) (Record.Ok cfg) de rs)
    (hsize : de+total recLen rs=cfg.blocksize) (hf : rs.length≤fuel)
    (habs : ∀ r∈rs,r.hit d.name.bytes=false) :
    (∃ pre r post,rs=pre++r::post ∧ d.reclen ≤ room r ∧
      findRoom cfg m d fuel de=.at (de+total recLen pre)) ∨
    ((∀ r∈rs,room r<d.reclen) ∧ findRoom cfg m d fuel de=.enospc) := by
  have hb := reclen_bounds d
  induction rs generalizing de fuel with
  | nil =>
    right
    refine ⟨nofun,?_⟩
    rw [total_nil] at hsize
    cases fuel with
    | zero => rfl
    | succ fuel => rw [findRoom,if_neg (by omega)]
  | cons r rs ih =>
    obtain ⟨h1,h2,h3⟩ := ht
    obtain ⟨hr,hrs⟩ := List.forall_mem_cons.mp habs
    rw [total_cons] at hsize
    have hle (q : Record) : room q ≤ q.recLen := by
      unfold room
      split <;> omega
    obtain ⟨fuel,rfl⟩ : ∃ f,fuel=f+1 := ⟨fuel-1,by simp at hf; omega⟩
    by_cases hfit : de+d.reclen ≤ cfg.blocksize
    · rw [findRoom,if_pos hfit,h1]
      dsimp only
      rw [checkDirEntry_of_ok h2 (by omega),if_neg (by simp),hr,if_neg Bool.false_ne_true]
      by_cases hroom : d.reclen ≤ room r
      · left
        exact ⟨[],r,rs,rfl,hroom,by rw [if_pos hroom]; rfl⟩
      rw [if_neg hroom]
      rcases ih h3 (by omega) (by simpa using hf) hrs with ⟨pre,q,post,he,hq,hfound⟩ | ⟨hno,hfull⟩
      · left
        refine ⟨r::pre,q,post,by rw [he]; rfl,hq,?_⟩
        rw [hfound,total_cons,Nat.add_assoc]
      · right
        exact ⟨List.forall_mem_cons.mpr ⟨by omega,hno⟩,hfull⟩
    · -- what is left of the block is too short for any record with the space
      right
      refine ⟨?_,by rw [findRoom,if_neg hfit]⟩
      intro q hq
      have hsub := @total_mem_le _ recLen _ _ hq
      rw [total_cons] at hsub
      have := hle q
      omega

theorem Leaf.findRoom (hl : Leaf cfg m rs) (habs : ∀ r∈rs,r.hit d.name.bytes=false) :
    (∃ pre r post,rs=pre++r::post ∧ d.reclen ≤ room r ∧
      findRoom cfg m d cfg.blocksize 0=.at (total recLen pre)) ∨
    ((∀ r∈rs,room r<d.reclen) ∧ findRoom cfg m d cfg.blocksize 0=.enospc) := by
  have hf := @findRoom_from cfg m rs d 0 cfg.blocksize hl.tiles
    (by rw [hl.total_eq,Nat.zero_add]) hl.length_le habs
  simpa using hf

def Dentry.Valid (cfg : Config) (d : Dentry) : Prop := 0<d.ino ∧ d.ino ≤ cfg.inodesCount

def Dentry.record (d : Dentry) (recLen : ℕ) : Record :=
  ⟨d.ino,recLen,d.fileType.getD 0,d.name.bytes⟩

theorem writeAll_append (m : Bytes) (ws vs : List (ℕ × List UInt8)) :
    writeAll m (ws++vs)=writeAll (writeAll m ws) vs := List.foldl_append

theorem writeAll_agree {m : Bytes} {lo hi : ℕ} {ws : List (ℕ × List UInt8)}
    (hw : ∀ w∈ws,hi ≤ w.1 ∨ w.1+w.2.length≤lo) : Bytes.Agree m (writeAll m ws) lo hi := by
  induction ws generalizing m with
  | nil => exact fun _ _ _ => rfl
  | cons w ws ih =>
    obtain ⟨h1,h2⟩ := List.forall_mem_cons.mp hw
    have hs : Bytes.Agree m (m.store w.1 w.2) lo hi := m.store_agree _ _ h1
    exact hs.trans (ih h2)

theorem readRecord_store_name (m : Bytes) (o : ℕ) (name : List UInt8) (hn : name.length<256) :
    readRecord ((m.store (o+6) [.ofNat name.length]).store (o+8) name) o=
      { readRecord m o with name := name } := by
  let m1 := m.store (o+6) [.ofNat name.length]
  have hlow : Bytes.Agree m1 (m1.store (o+8) name) 0 (o+8) :=
    m1.store_agree _ _ (.inl (Nat.le_refl _))
  have hhead : Bytes.Agree m m1 0 (o+6) := m.store_agree _ _ (.inl (Nat.le_refl _))
  have h7 : m1 (o+7)=m (o+7) :=
    m.store_agree (o+6) [.ofNat name.length] (.inr (Nat.le_refl _)) (o+7) (by simp)
      (Nat.lt_succ_self _)
  have h6 : m1 (o+6)=.ofNat name.length := m.store_at (o+6) [.ofNat name.length] 0 (by simp)
  have hs := m1.store_slice (o+8) 0 name.length name (by simp)
  have htoNat : (UInt8.ofNat name.length).toNat=name.length := by
    exact Nat.mod_eq_of_lt hn
  unfold readRecord
  rw [hlow.le32 (by omega) (by omega),hhead.le32 (by omega) (by omega),
    hlow.le16 (by omega) (by omega),hhead.le16 (by omega) (by omega),
    hlow (o+7) (by omega) (by omega),h7,hlow (o+6) (by omega) (by omega),h6,htoNat]
  simpa using hs

theorem readRecord_newWrites (m : Bytes) (o : ℕ) (d : Dentry) (hi : d.ino<4294967296) :
    readRecord (writeAll m (newWrites o d)) o=d.record (readRecord m o).recLen := by
  have hshort := d.name.short
  have hname (m : Bytes) := readRecord_store_name m o d.name.bytes (by omega)
  unfold newWrites Dentry.record
  rw [writeAll_append]
  refine (hname _).trans ?_
  cases d.fileType with
  | none =>
    change { readRecord ((m.store (o+7) [0]).store o (Bytes.enc32 d.ino)) o with
      name := d.name.bytes }=_
    rw [readRecord_store_inode _ _ _ hi,readRecord_store_fileType]
    rfl
  | some t =>
    change { readRecord (((m.store (o+7) [0]).store o (Bytes.enc32 d.ino)).store (o+7) [t]) o with
      name := d.name.bytes }=_
    rw [readRecord_store_fileType,readRecord_store_inode _ _ _ hi,readRecord_store_fileType]
    rfl

def inserted (r : Record) (d : Dentry) : List Record :=
  if r.inode≠0 then [r.trim,d.record (r.recLen-dirRecLen r.name.length)] else [d.record r.recLen]

theorem entriesOf_inserted (r : Record) (hd : d.Valid cfg) :
    entriesOf (inserted r d)=entriesOf [r]++[(d.name.bytes,d.ino)] := by
  have hnew (n : ℕ) : (d.record n).live=true := by
    have hne : d.ino≠0 := Nat.ne_of_gt hd.1
    exact decide_eq_true hne
  unfold inserted
  split
  · rename_i hr
    have hl : r.live=true := by simpa [Record.live] using hr
    have hl' : r.trim.live=true := hl
    simp only [entriesOf_cons,hl,hl',hnew,if_true]
    rfl
  · rename_i hr
    have hl : ¬r.live=true := by simpa [Record.live] using hr
    simp only [entriesOf_cons,hl,hnew,if_true]
    rfl

theorem uniform_inserted (hu : Uniform d.reclen [r]) (hroom : d.reclen ≤ room r) : Uniform d.reclen (inserted r d) := by
  obtain ⟨⟨hlen,hlive⟩,-⟩ := uniform_cons.mp hu
  unfold inserted
  unfold room at hroom
  split
  · rename_i hr
    rw [if_pos hr] at hroom
    have hl : r.live=true := by simpa [Record.live] using hr
    refine uniform_cons.mpr ⟨⟨Nat.le_of_eq (hlive hl).symm,hlive⟩,uniform_cons.mpr ⟨?_,List.forall_mem_nil _⟩⟩
    exact ⟨hroom,fun _ => rfl⟩
  · exact uniform_cons.mpr ⟨⟨hlen,fun _ => rfl⟩,List.forall_mem_nil _⟩

theorem record_ok (hd : d.Valid cfg) {o n : ℕ} (hn : d.reclen≤n) (h4 : n%4=0)
    (ho : o+n ≤ cfg.blocksize) : Record.Ok cfg o (d.record n) where
  min := by
    have hpos := List.length_pos_iff.mpr d.name.ne_nil
    have hb := dirRecLen_bounds d.name.bytes.length
    unfold Dentry.reclen at hn
    rw [dirRecLen_one]
    dsimp only [Dentry.record]
    omega
  four := h4
  fits := hn
  block := mod_add_le (by
    have := reclen_bounds d
    dsimp only [Dentry.record]
    omega) ho
  inode := hd.2
  named := fun _ => d.name.ne_nil

section

variable (hl : Leaf cfg m (pre++r::post))

include hl

theorem Leaf.add_dead (hd : d.Valid cfg) (hroom : d.reclen ≤ r.recLen) :
    Leaf cfg (writeAll m (newWrites (total recLen pre) d)) (pre++d.record r.recLen::post) := by
  have hlay := leaf_iff_layout.mp hl
  obtain ⟨hr,hok,hend⟩ := hlay.record_ok
  have hi : d.ino<4294967296 := Nat.lt_of_le_of_lt hd.2 cfg.inodes_lt
  have hdb := reclen_bounds d
  have hread := readRecord_newWrites m (total recLen pre) d hi
  change readRecord m (total recLen pre)=r at hr
  rw [hr] at hread
  refine leaf_iff_layout.mpr (hlay.rewriteOne _ (d.record r.recLen) ?_ ?_ hread ?_ rfl)
  · exact writeAll_agree (fun w hw => .inl (mem_newWrites hw).1)
  · refine writeAll_agree (fun w hw => .inr ?_)
    have := (mem_newWrites hw).2.1
    omega
  · exact record_ok hd hroom hok.four hend

theorem Leaf.add_live {n : ℕ} (hd : d.Valid cfg)
    (hlive : r.live=true) (hn : dirRecLen r.name.length=n) (hroom : d.reclen+n ≤ r.recLen) :
    let de := total recLen pre
    Leaf cfg (writeAll ((m.store (de+n+4) (Bytes.enc16 (r.recLen+65536-n))).store (de+4)
        (Bytes.enc16 n)) (newWrites (de+n) d))
      (pre++[r.trim,d.record (r.recLen-n)]++post) := by
  have hlay := leaf_iff_layout.mp hl
  obtain ⟨hr,hok,hend⟩ := hlay.record_ok
  have hbs := cfg.blocksize_bounds
  have hi : d.ino<4294967296 := Nat.lt_of_le_of_lt hd.2 cfg.inodes_lt
  have hb := dirRecLen_bounds r.name.length
  have hdb := reclen_bounds d
  have h4 := hok.four
  change total recLen pre+r.recLen ≤ cfg.blocksize at hend
  generalize hde : total recLen pre=de at *
  dsimp only
  have hlow : Bytes.Agree m (m.store (de+n+4) (Bytes.enc16 (r.recLen+65536-n))) 0 (de+n+4) :=
    m.store_agree _ _ (.inl (Nat.le_refl _))
  have hsplit : (m.store (de+n+4) (Bytes.enc16 (r.recLen+65536-n))).le16 (de+n+4)=r.recLen-n := by
    have := m.store_le16 (de+n+4) 0 (r.recLen+65536-n) (Bytes.enc16 _) rfl (by simp)
    rw [Nat.add_zero] at this
    omega
  have hr1 : readRecord (m.store (de+n+4) (Bytes.enc16 (r.recLen+65536-n))) de=r := by
    refine (readRecord_congr ?_).trans hr
    rw [hr]
    exact hlow.mono (Nat.zero_le _) (by omega)
  have hhigh (e : ℕ) : Bytes.Agree m (m.store (de+n+4) (Bytes.enc16 (r.recLen+65536-n)))
      (de+n+6) e := m.store_agree _ _ (.inr (by simp))
  generalize m.store (de+n+4) (Bytes.enc16 (r.recLen+65536-n))=m1 at *
  have hr2 : readRecord (m1.store (de+4) (Bytes.enc16 n)) de=r.trim := by
    rw [readRecord_store_recLen m1 de n (by omega),hr1,← hn]
    rfl
  have hag2 (e : ℕ) : Bytes.Agree m1 (m1.store (de+4) (Bytes.enc16 n)) (de+n) e :=
    m1.store_agree _ _ (.inr (by simp; omega))
  have hlow2 : Bytes.Agree m1 (m1.store (de+4) (Bytes.enc16 n)) 0 de :=
    m1.store_agree _ _ (.inl (by omega))
  generalize m1.store (de+4) (Bytes.enc16 n)=m2 at *
  have hnew : readRecord (writeAll m2 (newWrites (de+n) d)) (de+n)=d.record (r.recLen-n) := by
    rw [readRecord_newWrites m2 (de+n) d hi]
    change d.record (m2.le16 (de+n+4))=_
    rw [(hag2 (de+n+6)).le16 (by omega) (by omega),hsplit]
  have hkeep : Bytes.Agree m2 (writeAll m2 (newWrites (de+n) d)) 0 (de+n) :=
    writeAll_agree (fun w hw => .inl (mem_newWrites hw).1)
  have hold : readRecord (writeAll m2 (newWrites (de+n) d)) de=r.trim := by
    refine (readRecord_congr ?_).trans hr2
    rw [hr2]
    refine hkeep.mono (Nat.zero_le _) ?_
    dsimp only [Record.trim]
    omega
  have hlay' : Layout cfg (leafDir cfg m) (pre++[r]++post) := by simpa using hlay
  refine leaf_iff_layout.mpr (hlay'.replace _ [r.trim,d.record (r.recLen-n)] ?_ ?_ ?_ ?_)
  · rw [hde]
    exact ((hlow.mono (Nat.le_refl _) (by omega)).trans hlow2).trans
      (hkeep.mono (Nat.le_refl _) (by omega))
  · simp only [total_cons,total_nil,Nat.add_zero]
    refine (((hhigh _).mono (by omega) (Nat.le_refl _)).trans
      ((hag2 _).mono (by omega) (Nat.le_refl _))).trans ?_
    refine writeAll_agree (fun w hw => .inr ?_)
    have := (mem_newWrites hw).2.1
    omega
  · rw [hde]
    have ht : r.trim.recLen=n := hn
    refine ⟨hold,hok.trim hlive (mod_add_le (by omega) (by omega)),?_,?_,trivial⟩
    · rw [ht]
      exact hnew
    · exact record_ok hd (by omega) (by omega) (by omega)
  · have ht : r.trim.recLen=n := hn
    simp only [total_cons,total_nil,ht]
    dsimp only [Dentry.record]
    omega

theorem Leaf.add (hd : d.Valid cfg) (hroom : d.reclen ≤ room r) :
    Leaf cfg (writeAll m (addWrites m (total recLen pre) d)) (pre++inserted r d++post) := by
  have hr : readRecord m (total recLen pre)=r := (leaf_iff_layout.mp hl).record_ok.1
  have hdb := reclen_bounds d
  unfold room at hroom
  unfold addWrites newSpot inserted
  rw [hr]
  by_cases hino : r.inode≠0
  · have hlive : r.live=true := by simpa [Record.live] using hino
    simp only [if_pos hino] at hroom ⊢
    exact hl.add_live hd hlive rfl (by omega)
  · simp only [if_neg hino] at hroom ⊢
    have hadd := hl.add_dead hd hroom
    rw [← List.singleton_append,← List.append_assoc] at hadd
    exact hadd

end

end Ext2fsX.Htree
