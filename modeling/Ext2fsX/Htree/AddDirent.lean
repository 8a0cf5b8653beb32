import Ext2fsX.Htree.Halves

namespace Ext2fsX.Htree

open Framework Directory Record

/-- A file type is written on a file system that has them. -/
structure Dentry where
  name : Name
  ino : ℕ
  fileType : Option UInt8

def Dentry.reclen (d : Dentry) : ℕ := dirRecLen d.name.bytes.length

/-- The space that a record can give away: `de->inode ? rlen - nlen : rlen`. -/
def room (r : Record) : ℕ := if r.inode≠0 then r.recLen-dirRecLen r.name.length else r.recLen

def newSpot (m : Bytes) (de : ℕ) : ℕ :=
  let r := readRecord m de
  if r.inode≠0 then de+dirRecLen r.name.length else de

/-- The stores of `add_dirent_to_buf` into the record at `de`, in their order. -/
def addWrites (m : Bytes) (de : ℕ) (d : Dentry) : List (ℕ × List UInt8) :=
  let r := readRecord m de
  let nlen := dirRecLen r.name.length
  let de1 := newSpot m de
  (if r.inode≠0 then [(de1+4,Bytes.enc16 (r.recLen+65536-nlen)),(de+4,Bytes.enc16 nlen)]
    else [])++
  [(de1+7,[0]),(de1,Bytes.enc32 d.ino)]++(d.fileType.map (fun t => (de1+7,[t]))).toList++
  [(de1+6,[.ofNat d.name.bytes.length]),(de1+8,d.name.bytes)]

def writeAll (m : Bytes) (ws : List (ℕ × List UInt8)) : Bytes :=
  ws.foldl (fun m w => m.store w.1 w.2) m

/-- How the search of `add_dirent_to_buf` for space ends. -/
inductive Room where
  | eio
  | eexist
  | enospc
  | at (de : ℕ)
  deriving DecidableEq

def checkDirEntry (cfg : Config) (r : Record) (offset : ℕ) : Bool :=
  (!cfg.dirchk && decide (r.recLen≠0)) || !dirbadentry cfg r offset

/-- The search for space in a block, from the record at `de` on. -/
def findRoom (cfg : Config) (m : Bytes) (d : Dentry) : ℕ → ℕ → Room
  | 0,_ => .enospc
  | fuel+1,de =>
    if de+d.reclen ≤ cfg.blocksize then
      let r := readRecord m de
      if !checkDirEntry cfg r de then .eio
      else if r.hit d.name.bytes then .eexist
      else if d.reclen ≤ room r then .at de
      else findRoom cfg m d fuel (de+r.recLen)
    else .enospc

/-- The block and the record in it that `do_split` gives the new entry. -/
def Split.side (s : Split) (hash : ℕ) : Bytes × ℕ :=
  if s.hash2≤hash then (s.data2,s.de2) else (s.data1,s.de)

def newHalf (h : Hashing) (rs : List Record) (name : List UInt8) : List (ℕ × Record) :=
  match (upperHalf h rs)[0]? with
  | some u => if h.hash u.2.name ≤ h.hash name then upperHalf h rs else lowerHalf h rs
  | none => []

def spaceOf (xs : List (ℕ × Record)) : ℕ := (xs.map (fun x => dirRecLen x.2.name.length)).sum

variable {cfg : Config} {h : Hashing} {rs : List Record} {data1 : Bytes}

theorem spaceOf_eq (xs : List (ℕ × Record)) :
    spaceOf xs=total recLen (xs.map (fun x => x.2.trim)) := by
  unfold spaceOf total
  rw [List.map_map]
  rfl

theorem reclen_bounds (d : Dentry) : d.name.bytes.length+8 ≤ d.reclen ∧ d.reclen≤266 := by
  have hb := dirRecLen_bounds d.name.bytes.length
  have hs := d.name.short
  unfold Dentry.reclen
  omega

variable {m : Bytes}

def newWrites (o : ℕ) (d : Dentry) : List (ℕ × List UInt8) :=
  [(o+7,[0]),(o,Bytes.enc32 d.ino)]++(d.fileType.map (fun t => (o+7,[t]))).toList++
    [(o+6,[.ofNat d.name.bytes.length]),(o+8,d.name.bytes)]

theorem mem_newWrites {o : ℕ} {d : Dentry} {w : ℕ × List UInt8} (hw : w∈newWrites o d) :
    o ≤ w.1 ∧ w.1+w.2.length≤o+8+d.name.bytes.length ∧ (w.1+w.2.length≤o+4 ∨ o+6 ≤ w.1) := by
  unfold newWrites at hw
  simp only [List.mem_append,List.mem_cons,List.not_mem_nil,or_false,Option.mem_toList] at hw
  rcases hw with ((rfl | rfl) | hw) | rfl | rfl
  · simp only [List.length_cons,List.length_nil]
    omega
  · simp only [Bytes.enc32_length]
    omega
  · obtain ⟨t,-,rfl⟩ := Option.map_eq_some_iff.mp hw
    simp only [List.length_cons,List.length_nil]
    omega
  · simp only [List.length_cons,List.length_nil]
    omega
  · dsimp only
    omega

theorem addWrites_inside {de n : ℕ} {d : Dentry} (hde : de ≤ newSpot m de) :
    (∀ w∈addWrites m de d,w.1+w.2.length≤n) ↔ newSpot m de+8+d.name.bytes.length≤n := by
  constructor
  · intro hw
    apply hw (newSpot m de+8,d.name.bytes)
    simp [addWrites]
  intro hn w hw
  unfold addWrites at hw
  rw [List.append_assoc,List.append_assoc] at hw
  rcases List.mem_append.mp hw with hw | hw
  · split at hw
    · simp only [List.mem_cons,List.not_mem_nil,or_false] at hw
      rcases hw with rfl | rfl
      · simp only [Bytes.enc16_length]
        omega
      · simp only [Bytes.enc16_length]
        omega
    · cases hw
  · rw [← List.append_assoc] at hw
    exact (mem_newWrites (d := d) hw).2.1.trans hn

theorem newSpot_ge (m : Bytes) (de : ℕ) : de ≤ newSpot m de := by
  unfold newSpot
  dsimp only
  split <;> omega

theorem addWrites_of_room {de : ℕ} {d : Dentry} (hlen : de+(readRecord m de).recLen ≤ cfg.blocksize)
    (hroom : d.reclen ≤ room (readRecord m de)) :
    ∀ w∈addWrites m de d,w.1+w.2.length ≤ cfg.blocksize := by
  have hb := reclen_bounds d
  rw [addWrites_inside (newSpot_ge m de)]
  unfold room at hroom
  unfold newSpot
  split at hroom
  · rw [if_pos ‹_›]
    omega
  · rw [if_neg ‹_›]
    omega

variable {qs : List Record}

theorem last_room (hne : qs≠[]) (hleaf : Leaf cfg m (fillLast cfg.blocksize qs))
    (hqs : ∀ r∈qs,r.live=true ∧ r.recLen=dirRecLen r.name.length)
    (hroom : total recLen qs ≤ cfg.blocksize) :
    let de := lastSpot recLen 0 0 qs
    de+(readRecord m de).recLen=cfg.blocksize ∧
      room (readRecord m de)=cfg.blocksize-total recLen qs ∧
      newSpot m de=total recLen qs := by
  obtain ⟨xs,r,rfl⟩ := (List.eq_nil_or_concat qs).resolve_left hne
  rw [List.concat_eq_append] at hleaf hroom hqs ⊢
  obtain ⟨hlive,hlen⟩ := hqs r (by simp)
  have hino : r.inode≠0 := by simpa [Record.live] using hlive
  rw [fillLast_concat] at hleaf
  have ht := ((tiles_append 0 xs _).mp hleaf.tiles).2
  rw [Nat.zero_add] at ht
  rw [total_append,total_cons,total_nil] at hroom ⊢
  dsimp only
  rw [lastSpot_concat,Nat.zero_add]
  unfold newSpot room
  rw [ht.1]
  dsimp only
  rw [if_pos hino,if_pos hino]
  omega

theorem empty_room (d : Dentry) (hlen : (readRecord m 0).recLen=cfg.blocksize) :
    d.reclen ≤ room (readRecord m 0) := by
  have hb := reclen_bounds d
  have hbs := cfg.blocksize_bounds
  have hr := dirRecLen_bounds (readRecord m 0).name.length
  have hn := readRecord_name_lt m 0
  unfold room
  split <;> omega

/-- A block that was filled with the records `qs`, and the last of them. -/
structure Side (cfg : Config) (p : Bytes × ℕ) (qs : List Record) : Prop where
  last : p.2=lastSpot recLen 0 0 qs
  empty : qs=[] → (readRecord p.1 0).recLen=cfg.blocksize
  leaf : qs≠[] → Leaf cfg p.1 (fillLast cfg.blocksize qs)
  live : ∀ r∈qs,r.live=true ∧ r.recLen=dirRecLen r.name.length
  fits : total recLen qs ≤ cfg.blocksize

theorem Side.room_iff {p : Bytes × ℕ} (hp : Side cfg p qs) (d : Dentry) :
    (d.reclen ≤ room (readRecord p.1 p.2) ∧
      ∀ w∈addWrites p.1 p.2 d,w.1+w.2.length ≤ cfg.blocksize) ↔
      total recLen qs+d.reclen ≤ cfg.blocksize := by
  have hb := reclen_bounds d
  have hbs := cfg.blocksize_bounds
  have hfit := hp.fits
  rw [hp.last]
  by_cases hne : qs=[]
  · have hlen := hp.empty hne
    subst hne
    have hr := empty_room d hlen
    refine iff_of_true ⟨hr,?_⟩ (by rw [total_nil]; omega)
    exact addWrites_of_room (by rw [lastSpot,hlen]; omega) hr
  · obtain ⟨h1,h2,-⟩ := last_room hne (hp.leaf hne) hp.live hfit
    constructor
    · intro hr
      omega
    · intro hr
      have hr' : d.reclen ≤ room (readRecord p.1 (lastSpot recLen 0 0 qs)) := by
        omega
      exact ⟨hr',addWrites_of_room (by omega) hr'⟩

theorem upperLive_packed {r : Record} (hr : r∈upperLive h rs) :
    r.live=true ∧ r.recLen=dirRecLen r.name.length := by
  obtain ⟨x,hx,rfl⟩ := mem_upperLive.mp hr
  exact ⟨(mem_upperHalf hx).2,rfl⟩

theorem Leaf.lowerLive_packed (hl : Leaf cfg data1 rs) {r : Record} (hr : r∈lowerLive h rs) :
    r.live=true ∧ r.recLen=dirRecLen r.name.length := by
  obtain ⟨x,hx,rfl⟩ := hl.mem_lowerLive.mp hr
  exact ⟨(mem_sortedSpots.mp (List.mem_of_mem_take hx)).2,rfl⟩

theorem lowerHalf_eq_nil (hu : upperHalf h rs=[]) : lowerHalf h rs=[] := by
  have h0 := congrArg List.length hu
  unfold upperHalf at h0
  rw [List.length_drop,List.length_nil] at h0
  apply List.length_eq_zero_iff.mp
  unfold lowerHalf
  rw [List.length_take]
  omega

theorem Leaf.sides (hl : Leaf cfg data1 rs) (data2 : Bytes) : let s := doSplit cfg h data1 data2
    Side cfg (s.data1,s.de) (lowerLive h rs) ∧ Side cfg (s.data2,s.de2) (upperLive h rs) := by
  have hs := hl.doSplit_halved (h := h) data2
  have hsum := hl.halves_room (h := h)
  constructor
  · exact ⟨hs.de,fun hne => (hs.lower_nil hne).2,hs.lower,fun _ hr => hl.lowerLive_packed hr,
      by omega⟩
  · exact ⟨hs.de2,hs.upper_nil,hs.upper,fun _ hr => upperLive_packed hr,by omega⟩

theorem Leaf.split_side (hl : Leaf cfg data1 rs) (data2 : Bytes) (name : List UInt8) :
    ∃ qs,Side cfg ((doSplit cfg h data1 data2).side (h.hash name)) qs ∧
      qs.Perm ((newHalf h rs name).map (fun x => x.2.trim)) := by
  have hs := hl.doSplit_halved (h := h) data2
  obtain ⟨hlow,hupp⟩ := hl.sides (h := h) data2
  have hlp := hl.lowerLive_perm (h := h)
  have hup : (upperLive h rs).Perm ((upperHalf h rs).map (fun x => x.2.trim)) := .refl _
  unfold Split.side newHalf
  cases hu : (upperHalf h rs)[0]? with
  | some u =>
    rw [hs.hash2 u hu]
    dsimp only
    split
    · exact ⟨_,hupp,hup⟩
    · exact ⟨_,hlow,hlp⟩
  | none =>
    -- without a live record both sides are empty, and which one is taken does not matter
    have hue : upperHalf h rs=[] :=
      List.length_eq_zero_iff.mp (Nat.le_zero.mp (List.getElem?_eq_none_iff.mp hu))
    rw [lowerHalf_eq_nil hue] at hlp
    rw [hue] at hup
    split
    · exact ⟨_,hupp,hup⟩
    · exact ⟨_,hlow,hlp⟩

theorem spaceOf_perm {xs : List (ℕ × Record)}
    (hp : qs.Perm (xs.map (fun x => x.2.trim))) : total recLen qs=spaceOf xs := by
  rw [spaceOf_eq]
  exact (hp.map _).sum_eq

/-- The record returned for a name has the space for it exactly when the records on that side of the
split leave the space. -/
theorem split_room_iff (cfg : Config) (h : Hashing) (data1 data2 : Bytes) (rs : List Record)
    (d : Dentry) (hl : Leaf cfg data1 rs) :
    let p := (doSplit cfg h data1 data2).side (h.hash d.name.bytes)
    (d.reclen ≤ room (readRecord p.1 p.2) ∧
      ∀ w∈addWrites p.1 p.2 d,w.1+w.2.length ≤ cfg.blocksize) ↔
      spaceOf (newHalf h rs d.name.bytes)+d.reclen ≤ cfg.blocksize := by
  obtain ⟨qs,hside,hperm⟩ := hl.split_side (h := h) data2 d.name.bytes
  have hiff := hside.room_iff d
  rw [spaceOf_perm hperm] at hiff
  exact hiff

def dentryB : Dentry := ⟨nameB,13,some 1⟩

theorem split_room_two :
    dentryB.reclen ≤ room (readRecord
      ((doSplit smallConfig (dirhash .tea ⟨0,0,0,0⟩) (layRecords twoRecords) (fun _ => 7)).side
        ((dirhash .tea ⟨0,0,0,0⟩).hash nameB.bytes)).1
      ((doSplit smallConfig (dirhash .tea ⟨0,0,0,0⟩) (layRecords twoRecords) (fun _ => 7)).side
        ((dirhash .tea ⟨0,0,0,0⟩).hash nameB.bytes)).2) :=
  ((split_room_iff smallConfig (dirhash .tea ⟨0,0,0,0⟩) (layRecords twoRecords) (fun _ => 7)
    twoRecords dentryB twoRecords_leaf).mpr (by decide +kernel)).1

def longName (c : UInt8) : List UInt8 := List.replicate 255 c

/-- A leaf with the short names `v`, `w`, `y` and three long ones, whose hashes are greater. -/
def mixedRecords : List Record :=
  [⟨11,12,1,[118]⟩,⟨12,12,1,[119]⟩,⟨13,12,1,[121]⟩,⟨14,264,1,longName 100⟩,
    ⟨15,264,1,longName 103⟩,⟨16,460,1,longName 116⟩]

def dentryLong : Dentry := ⟨⟨longName 122,by decide +kernel,by decide +kernel⟩,17,some 1⟩

theorem mixedRecords_leaf : Leaf smallConfig (layRecords mixedRecords) mixedRecords :=
  layRecords_leaf (by decide +kernel) (by decide +kernel) (by decide +kernel)

/-- Half of the entries by number is more than the block can spare in bytes: the name is written
past the end. -/
theorem split_without_room :
    let p := (doSplit smallConfig (dirhash .legacy ⟨0,0,0,0⟩) (layRecords mixedRecords)
      (fun _ => 0)).side ((dirhash .legacy ⟨0,0,0,0⟩).hash dentryLong.name.bytes)
    Leaf smallConfig (layRecords mixedRecords) mixedRecords ∧
      (∀ r∈mixedRecords,room r<dentryLong.reclen) ∧
      room (readRecord p.1 p.2)<dentryLong.reclen ∧
      ¬∀ w∈addWrites p.1 p.2 dentryLong,w.1+w.2.length ≤ smallConfig.blocksize := by
  obtain ⟨qs,hside,hperm⟩ := mixedRecords_leaf.split_side (h := dirhash .legacy ⟨0,0,0,0⟩)
    (fun _ => 0) dentryLong.name.bytes
  have hspace : total recLen qs=792 := (spaceOf_perm hperm).trans (by decide +kernel)
  have hne : qs≠[] := by
    rintro rfl
    cases hspace
  obtain ⟨-,hroom,hspot⟩ := last_room hne (hside.leaf hne) hside.live hside.fits
  rw [← hside.last,hspace] at hroom hspot
  refine ⟨mixedRecords_leaf,by decide +kernel,?_,?_⟩
  · rw [hroom]
    decide +kernel
  · rw [addWrites_inside (newSpot_ge _ _),hspot]
    decide +kernel

end Ext2fsX.Htree
