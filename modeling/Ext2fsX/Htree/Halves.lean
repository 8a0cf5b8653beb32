import Ext2fsX.Directory.Calls
import Ext2fsX.Htree.Split

namespace Ext2fsX.Htree

open Framework Directory Record

variable {cfg : Config} {h : Hashing} {rs : List Record} {data1 : Bytes}

def lowerHalf (h : Hashing) (rs : List Record) : List (ℕ × Record) :=
  (sortedSpots h rs).take ((sortedSpots h rs).length/2)

def upperHalf (h : Hashing) (rs : List Record) : List (ℕ × Record) :=
  (sortedSpots h rs).drop ((sortedSpots h rs).length/2)

def upperLive (h : Hashing) (rs : List Record) : List Record :=
  (upperHalf h rs).map (fun x => x.2.trim)

def lowerLive (h : Hashing) (rs : List Record) : List Record :=
  ((liveSpots 0 rs).filter (fun x => x.1∉(upperHalf h rs).map Prod.fst)).map (fun x => x.2.trim)

theorem halves_append (h : Hashing) (rs : List Record) :
    lowerHalf h rs++upperHalf h rs=sortedSpots h rs := List.take_append_drop _ _

variable {x y : ℕ × Record} {n : ℕ} {r : Record}

theorem mem_upperHalf (hx : x∈upperHalf h rs) : x∈spots recLen 0 rs ∧ x.2.live=true :=
  mem_sortedSpots.mp (List.mem_of_mem_drop hx)

theorem Leaf.nodup (hl : Leaf cfg data1 rs) : ((sortedSpots h rs).map Prod.fst).Nodup := by
  have hne : (spots recLen 0 rs).Pairwise (fun x y => x.1≠y.1) := by
    apply (spots_pairwise 0 rs).imp_of_mem
    intro x y hx _ hle
    have := (hl.ok x hx).2.pos
    omega
  have hp : ((liveSpots 0 rs).map Prod.fst).Nodup := List.pairwise_map.mpr (hne.filter _)
  exact ((sortedSpots_perm rs).map Prod.fst).nodup_iff.mpr hp

theorem Leaf.lowerLive_perm (hl : Leaf cfg data1 rs) :
    (lowerLive h rs).Perm ((lowerHalf h rs).map (fun x => x.2.trim)) := by
  apply List.Perm.map
  have hnd := hl.nodup (h := h)
  rw [← halves_append,List.map_append,List.nodup_append] at hnd
  have hup : (upperHalf h rs).filter (fun x => x.1∉(upperHalf h rs).map Prod.fst)=[] := by
    apply List.filter_eq_nil_iff.mpr
    intro x hx hout
    exact of_decide_eq_true hout (List.mem_map_of_mem hx)
  have hlow : (lowerHalf h rs).filter (fun x => x.1∉(upperHalf h rs).map Prod.fst)=
      lowerHalf h rs := by
    apply List.filter_eq_self.mpr
    intro x hx
    apply decide_eq_true
    intro hm
    exact hnd.2.2 x.1 (List.mem_map_of_mem hx) x.1 hm rfl
  have hperm := (sortedSpots_perm (h := h) rs).symm.filter
    (fun x => x.1∉(upperHalf h rs).map Prod.fst)
  rw [← halves_append,List.filter_append,hup,hlow,List.append_nil] at hperm
  exact hperm

def clearedRecords (rs : List Record) (done : List ℕ) : List Record :=
  (spots recLen 0 rs).map (fun x => if x.1∈done then { x.2 with inode := 0 } else x.2)

variable {m : Bytes}

theorem Cleared.tiles {done : List ℕ} (hc : Cleared m rs done)
    (hok : ∀ x∈spots recLen 0 rs,Record.Ok cfg x.1 x.2) :
    Tiles recLen (readRecord m) (Record.Ok cfg) 0 (clearedRecords rs done) := by
  rw [tiles_iff,clearedRecords,spots_map]
  · intro y hy
    obtain ⟨x,hx,rfl⟩ := List.mem_map.mp hy
    refine ⟨hc x hx,?_⟩
    have ho := hok x hx
    split
    · exact ⟨ho.min,ho.four,ho.fits,ho.block,Nat.zero_le _,by simp [Record.live]⟩
    · exact ho
  · intro x
    split <;> rfl

theorem clearedRecords_total (rs : List Record) (done : List ℕ) :
    total recLen (clearedRecords rs done)=total recLen rs := by
  have hlen (x : ℕ × Record) :
      (if x.1∈done then { x.2 with inode := 0 } else x.2 : Record).recLen=x.2.recLen := by
    split <;> rfl
  unfold total clearedRecords
  rw [List.map_map]
  conv_rhs => rw [← @spots_map_snd Record recLen 0 rs,List.map_map]
  congr 1
  exact List.map_congr_left (fun x _ => hlen x)

theorem packed_cleared (h : Hashing) (rs : List Record) :
    packed (clearedRecords rs ((upperHalf h rs).map Prod.fst))=lowerLive h rs := by
  unfold packed clearedRecords lowerLive liveSpots
  generalize (upperHalf h rs).map Prod.fst=done
  induction spots recLen 0 rs with
  | nil => rfl
  | cons x xs ih =>
    have h0 : ({ x.2 with inode := 0 } : Record).live=false := rfl
    by_cases hd : x.1∈done
    · by_cases hl : x.2.live=true
      · simpa [hd,hl,h0] using ih
      · simpa [hd,hl,h0] using ih
    · by_cases hl : x.2.live=true
      · simpa [hd,hl] using ih
      · simpa [hd,hl] using ih

variable {qs : List Record}

theorem first_dead
    (ht : Tiles recLen (readRecord m) (Record.Ok cfg) 0 qs) (hpos : 0<total recLen qs)
    (hd : packed qs=[]) : (readRecord m 0).inode=0 := by
  cases qs with
  | nil => simp at hpos
  | cons r qs =>
    rw [ht.1]
    cases hl : r.live with
    | false => simpa [Record.live] using hl
    | true => simp [packed,hl] at hd

theorem total_perm {xs ys : List (ℕ × Record)} (hp : xs.Perm ys) :
    total recLen (xs.map (fun x => x.2.trim))=total recLen (ys.map (fun x => x.2.trim)) := by
  exact ((hp.map _).map _).sum_eq

theorem Leaf.halves_room (hl : Leaf cfg data1 rs) :
    total recLen (lowerLive h rs)+total recLen (upperLive h rs) ≤ cfg.blocksize := by
  have hlow : total recLen (lowerLive h rs)=
      total recLen ((lowerHalf h rs).map (fun x => x.2.trim)) := by
    exact (hl.lowerLive_perm.map _).sum_eq
  have hsum : total recLen ((lowerHalf h rs).map (fun x => x.2.trim))+
      total recLen (upperLive h rs)=
      total recLen ((liveSpots 0 rs).map (fun x => x.2.trim)) := by
    rw [← total_perm (sortedSpots_perm (h := h) rs),← halves_append,List.map_append,total_append]
    rfl
  have hroom := trim_room hl.tiles
  have htot := hl.total_eq
  omega

structure Halved (cfg : Config) (h : Hashing) (rs : List Record) (s : Split) : Prop where
  entries : s.moves.map Move.entry=(leafMap h rs).drop ((leafMap h rs).length/2)
  unread : ∀ v∈s.moves,v.dst+v.recLen ≤ v.map+8
  hash2 : ∀ x,(upperHalf h rs)[0]?=some x → s.hash2=h.hash x.2.name
  continued : ∀ x,(lowerHalf h rs).getLast?=some x →
    s.continued=decide (s.hash2=h.hash x.2.name)
  upper : upperLive h rs≠[] → Leaf cfg s.data2 (fillLast cfg.blocksize (upperLive h rs))
  de2 : s.de2=lastSpot recLen 0 0 (upperLive h rs)
  upper_nil : upperLive h rs=[] → (readRecord s.data2 0).recLen=cfg.blocksize
  lower : lowerLive h rs≠[] → Leaf cfg s.data1 (fillLast cfg.blocksize (lowerLive h rs))
  de : s.de=lastSpot recLen 0 0 (lowerLive h rs)
  lower_nil : lowerLive h rs=[] →
    (readRecord s.data1 0).inode=0 ∧ (readRecord s.data1 0).recLen=cfg.blocksize

theorem readEntry_of_readMap {o i : ℕ} (hread : readMap m o (sortedSpots h rs).length=leafMap h rs)
    (hx : (sortedSpots h rs)[i]?=some x) : readEntry m (o+8*i)=entryOf h x := by
  have hr := readMap_get (m := m) (o := o) (List.getElem?_eq_some_iff.mp hx).1
  rw [hread,leafMap_eq,List.getElem?_map,hx] at hr
  exact (Option.some.inj hr).symm

/-- `dx_move_dirents(data1, data2, map + split, count - split)`. -/
theorem Leaf.moved (hl : Leaf cfg data1 rs) (hn : (sortedSpots h rs).length=n)
    (hread : readMap m (cfg.blocksize-8*n) n=leafMap h rs) :
    Moved cfg h rs [] (upperHalf h rs) ⟨data1,m,cfg.blocksize-8*n+8*(n/2),0,0,[]⟩
      (moveDirents (n-n/2) ⟨data1,m,cfg.blocksize-8*n+8*(n/2),0,0,[]⟩) := by
  have htwelve := hl.twelve
  have hroom := trim_room hl.tiles
  have htot := hl.total_eq
  have hhalf := hl.halves_room (h := h)
  have hcount := (sortedSpots_perm (h := h) rs).length_eq
  have hupl : (upperHalf h rs).length=n-n/2 := by
    unfold upperHalf
    rw [List.length_drop,hn]
  have hup : readMap m (cfg.blocksize-8*n+8*(n/2)) (upperHalf h rs).length=
      (upperHalf h rs).map (entryOf h) := by
    rw [hupl,← readMap_drop,hread,leafMap_eq,← List.map_drop]
    unfold upperHalf
    rw [hn]
  have hnd := hl.nodup (h := h)
  rw [← halves_append,List.map_append] at hnd
  rw [← hupl]
  apply moveDirents_spec (fun x hx => (hl.ok x hx).2)
  · intro x hx
    rw [(hl.ok x hx).1]
    rfl
  · exact fun x hx => mem_upperHalf hx
  · exact (List.nodup_append.mp hnd).2.1
  · exact fun _ _ => List.not_mem_nil
  · exact hup
  · dsimp only
    omega
  · change 0+total recLen (upperLive h rs) ≤ cfg.blocksize
    omega

/-- `dx_pack_dirents(data1, blocksize)` after the upper half has been moved. -/
theorem Leaf.packs (hl : Leaf cfg data1 rs) (hc : Cleared m rs ((upperHalf h rs).map Prod.fst)) :
    let t := packDirents cfg.blocksize cfg.blocksize 0 ⟨m,0,0⟩
    Tiles recLen (readRecord t.m) (Record.Ok cfg) 0 (lowerLive h rs) ∧
      t.prev=lastSpot recLen 0 0 (lowerLive h rs) ∧
      (lowerLive h rs=[] → t.m=m ∧ (readRecord m 0).inode=0) := by
  have htl := hc.tiles (fun x hx => (hl.ok x hx).2)
  have hbs := cfg.blocksize_bounds
  have htot := hl.total_eq
  have hct := clearedRecords_total rs ((upperHalf h rs).map Prod.fst)
  have hlive := packed_cleared h rs
  have hlen := htl.length_le (fun _ _ hr => hr.pos)
  obtain ⟨-,hpt,hprev⟩ := packDirents_spec (s := ⟨m,0,0⟩) htl
    (show 0+total recLen _=cfg.blocksize by omega) (Nat.le_refl _)
    (show _ ≤ cfg.blocksize by omega) (Nat.le_refl 0)
  rw [hlive] at hpt hprev
  refine ⟨hpt,hprev,?_⟩
  intro hne
  have hnil := @packDirents_nil _ cfg cfg.blocksize cfg.blocksize 0 ⟨m,0,0⟩ htl (by omega)
    (hlive.trans hne)
  rw [hnil]
  exact ⟨rfl,first_dead htl (by omega) (hlive.trans hne)⟩

theorem Leaf.doSplit_halved (hl : Leaf cfg data1 rs) (data2 : Bytes) :
    Halved cfg h rs (doSplit cfg h data1 data2) := by
  obtain ⟨hcount,hread⟩ := hl.readMap_sortMap (h := h) data2
  have hbs := cfg.blocksize_bounds
  have hhalf := hl.halves_room (h := h)
  unfold doSplit
  generalize makeMap h data1 cfg.blocksize cfg.blocksize 0 ⟨data2,cfg.blocksize,0⟩=s at *
  dsimp only at hcount hread ⊢
  have hn : (sortedSpots h rs).length=s.count := by rw [(sortedSpots_perm rs).length_eq,hcount]
  generalize sortMap s.data2 (cfg.blocksize-8*s.count) s.count=m at *
  have hlm : (leafMap h rs).length=s.count := by rw [← hread,readMap_length]
  have hmv := hl.moved hn hread
  generalize moveDirents (s.count-s.count/2)
    ⟨data1,m,cfg.blocksize-8*s.count+8*(s.count/2),0,0,[]⟩=mv at *
  have hde2 : mv.dst-mv.recLen=lastSpot recLen 0 0 (upperLive h rs) := hmv.last
  have hcl := hmv.cleared
  rw [List.append_nil] at hcl
  obtain ⟨hpt,hprev,hnil⟩ := hl.packs hcl
  constructor
  · rw [hmv.entries,hlm,leafMap_eq,← List.map_drop]
    unfold upperHalf
    rw [hn]
    rfl
  · exact hmv.unread nofun
  · intro x hx
    have hx' : (sortedSpots h rs)[s.count/2]?=some x := by
      rw [← hx,← hn]
      unfold upperHalf
      rw [List.getElem?_drop,Nat.add_zero]
    rw [readEntry_of_readMap (hn.symm ▸ hread) hx']
    rfl
  · intro x hx
    have hx' : 0 < s.count/2 ∧ (sortedSpots h rs)[s.count/2-1]?=some x := by
      unfold lowerHalf at hx
      rw [hn,List.getLast?_eq_getElem?,List.length_take,hn,List.getElem?_take] at hx
      split at hx
      · rename_i hlt
        refine ⟨by omega,?_⟩
        rw [← hx]
        congr 1
        omega
      · cases hx
    have hat : cfg.blocksize-8*s.count+8*(s.count/2)-8=
        cfg.blocksize-8*s.count+8*(s.count/2-1) := by omega
    rw [hat,readEntry_of_readMap (hn.symm ▸ hread) hx'.2]
    rfl
  · intro hne
    rw [hde2]
    exact leaf_fillLast hne hmv.tiles (by omega)
  · exact hde2
  · intro hne
    rw [hde2,hne]
    exact congrArg recLen (readRecord_store_recLen mv.data2 0 cfg.blocksize hbs.2)
  · intro hne
    rw [hprev]
    exact leaf_fillLast hne hpt (by omega)
  · exact hprev
  · intro hne
    obtain ⟨hm,hi⟩ := hnil hne
    rw [hprev,hm,hne]
    have hst := readRecord_store_recLen mv.data1 0 cfg.blocksize hbs.2
    exact ⟨(congrArg Record.inode hst).trans hi,congrArg recLen hst⟩

theorem sortedSpots_sorted (h : Hashing) (rs : List Record) :
    (sortedSpots h rs).Pairwise (fun x y => h.hash x.2.name ≤ h.hash y.2.name) :=
  combSort_sorted _

theorem halves_le (hx : x∈lowerHalf h rs) (hy : y∈upperHalf h rs) :
    h.hash x.2.name ≤ h.hash y.2.name := by
  have hs := sortedSpots_sorted h rs
  rw [← halves_append] at hs
  exact (List.pairwise_append.mp hs).2.2 x hx y hy

theorem upperHalf_head_le {u : ℕ × Record} (hu : (upperHalf h rs)[0]?=some u)
    (hy : y∈upperHalf h rs) : h.hash u.2.name ≤ h.hash y.2.name := by
  have hs := sortedSpots_sorted h rs
  rw [← halves_append] at hs
  have hp := (List.pairwise_append.mp hs).2.1
  cases hx : upperHalf h rs with
  | nil => simp [hx] at hu
  | cons z zs =>
    rw [hx] at hu hy hp
    obtain rfl : z=u := by simpa using hu
    rcases List.mem_cons.mp hy with rfl | hy
    · exact Nat.le_refl _
    · exact (List.pairwise_cons.mp hp).1 y hy

theorem lowerHalf_last_le {l : ℕ × Record} (hl : (lowerHalf h rs).getLast?=some l)
    (hy : y∈lowerHalf h rs) : h.hash y.2.name ≤ h.hash l.2.name := by
  have hs := sortedSpots_sorted h rs
  rw [← halves_append] at hs
  have hp := (List.pairwise_append.mp hs).1
  rcases List.eq_nil_or_concat (lowerHalf h rs) with hx | ⟨zs,z,hx⟩
  · simp [hx] at hl
  rw [List.concat_eq_append] at hx
  rw [hx] at hl hy hp
  obtain rfl : z=l := by simpa using hl
  rcases List.mem_append.mp hy with hy | hy
  · exact (List.pairwise_append.mp hp).2.2 y hy z List.mem_cons_self
  · obtain rfl := List.mem_singleton.mp hy
    exact Nat.le_refl _

theorem trim_name {q : Record} (he : r.trim=q.trim) : r.name=q.name := by
  have := congrArg Record.name he
  exact this

theorem packed_eq (o : ℕ) (rs : List Record) :
    packed rs=(liveSpots o rs).map (fun x => x.2.trim) := by
  unfold packed liveSpots
  induction rs generalizing o with
  | nil => rfl
  | cons r rs ih =>
    by_cases hl : r.live=true
    · simp [spots,hl,ih (o+r.recLen)]
    · simp [spots,hl,ih (o+r.recLen)]

theorem packed_map {xs : List (ℕ × Record)} (hx : ∀ x∈xs,x.2.live=true) :
    packed (xs.map (fun x => x.2.trim))=xs.map (fun x => x.2.trim) := by
  have hf : (xs.map (fun x => x.2.trim)).filter Record.live=xs.map (fun x => x.2.trim) := by
    apply List.filter_eq_self.mpr
    intro r hr
    obtain ⟨x,hx',rfl⟩ := List.mem_map.mp hr
    exact hx x hx'
  unfold packed
  rw [hf,List.map_map]
  rfl

theorem packed_upper (h : Hashing) (rs : List Record) : packed (upperLive h rs)=upperLive h rs :=
  packed_map (fun _ hx => (mem_upperHalf hx).2)

theorem packed_lower (h : Hashing) (rs : List Record) : packed (lowerLive h rs)=lowerLive h rs :=
  packed_map (fun _ hx => (mem_liveSpots.mp (List.mem_of_mem_filter hx)).2)

theorem Leaf.mem_lowerLive (hl : Leaf cfg data1 rs) :
    r∈lowerLive h rs ↔ ∃ x∈lowerHalf h rs,x.2.trim=r := by
  rw [hl.lowerLive_perm.mem_iff,List.mem_map]

theorem mem_upperLive : r∈upperLive h rs ↔ ∃ x∈upperHalf h rs,x.2.trim=r :=
  List.mem_map

theorem Leaf.halves_perm (hl : Leaf cfg data1 rs) :
    (lowerLive h rs++upperLive h rs).Perm (packed rs) := by
  have h1 := (hl.lowerLive_perm (h := h)).append_right (upperLive h rs)
  unfold upperLive at h1
  rw [← List.map_append,halves_append] at h1
  rw [packed_eq 0]
  exact h1.trans ((sortedSpots_perm rs).map _)

theorem mem_of_fillLast (hr : r∈fillLast n qs) (hl : r.live=true) : r.trim∈packed qs := by
  rw [← packed_fillLast n qs]
  exact List.mem_map_of_mem (List.mem_filter.mpr ⟨hr,hl⟩)

theorem exists_fillLast {q : Record} (hq : q∈packed qs) :
    ∃ r∈fillLast n qs,r.live=true ∧ r.trim=q := by
  rw [← packed_fillLast n qs] at hq
  obtain ⟨r,hr,he⟩ := List.mem_map.mp hq
  obtain ⟨hr,hl⟩ := List.mem_filter.mp hr
  exact ⟨r,hr,hl,he⟩

theorem halves_nonempty (h2 : 2 ≤ (rs.filter Record.live).length) :
    (∃ l,(lowerHalf h rs).getLast?=some l) ∧ ∃ u,(upperHalf h rs)[0]?=some u := by
  have hlen : (sortedSpots h rs).length=(rs.filter Record.live).length := by
    have he := congrArg List.length (packed_eq 0 rs)
    unfold packed at he
    rw [List.length_map,List.length_map] at he
    rw [(sortedSpots_perm rs).length_eq,he]
  constructor
  · cases he : (lowerHalf h rs).getLast? with
    | some l => exact ⟨l,rfl⟩
    | none =>
      have := congrArg List.length (List.getLast?_eq_none_iff.mp he)
      unfold lowerHalf at this
      rw [List.length_take,List.length_nil] at this
      omega
  · cases he : (upperHalf h rs)[0]? with
    | some u => exact ⟨u,rfl⟩
    | none =>
      have := List.getElem?_eq_none_iff.mp he
      unfold upperHalf at this
      rw [List.length_drop] at this
      omega

theorem split_hash_occurs {l u : ℕ × Record} (hl : (lowerHalf h rs).getLast?=some l)
    (hu : (upperHalf h rs)[0]?=some u) :
    h.hash u.2.name=h.hash l.2.name ↔ ∃ x∈lowerHalf h rs,h.hash x.2.name=h.hash u.2.name := by
  have hlm := List.mem_of_getLast? hl
  have hum := List.mem_of_getElem? hu
  constructor
  · exact fun he => ⟨l,hlm,he.symm⟩
  · rintro ⟨x,hx,he⟩
    have h1 := lowerHalf_last_le hl hx
    have h2 := halves_le hlm hum
    omega

/-- Two blocks tiled by records, with the same live entries, in order of their hashes, under a key
whose lowest bit says that the hash of the split is in both; and no entry of the map is written over
before it is read. -/
theorem doSplit_correct (cfg : Config) (h : Hashing) (data1 data2 : Bytes) (rs : List Record)
    (hl : Leaf cfg data1 rs) (h2 : 2 ≤ (rs.filter Record.live).length) :
    let s := doSplit cfg h data1 data2
    ∃ lo up,Leaf cfg s.data1 lo ∧ Leaf cfg s.data2 up ∧
      (packed lo++packed up).Perm (packed rs) ∧
      (∀ r∈lo,r.live=true → h.hash r.name ≤ s.hash2) ∧
      (∀ r∈up,r.live=true → s.hash2 ≤ h.hash r.name) ∧
      (s.key%2=1 ↔ (∃ r∈lo,r.live=true ∧ h.hash r.name=s.hash2) ∧
        ∃ r∈up,r.live=true ∧ h.hash r.name=s.hash2) ∧
      s.key/2*2=s.hash2 ∧
      s.moves.map Move.entry=(leafMap h rs).drop ((leafMap h rs).length/2) ∧
      ∀ v∈s.moves,v.dst+v.recLen ≤ v.map+8 := by
  obtain ⟨⟨l,hlast⟩,u,hhead⟩ := halves_nonempty (h := h) h2
  have hlm := List.mem_of_getLast? hlast
  have hum := List.mem_of_getElem? hhead
  have hs := hl.doSplit_halved (h := h) data2
  have hh := hs.hash2 u hhead
  have hlo : l.2.trim∈lowerLive h rs := hl.mem_lowerLive.mpr ⟨l,hlm,rfl⟩
  have hup : u.2.trim∈upperLive h rs := mem_upperLive.mpr ⟨u,hum,rfl⟩
  have hev := h.even u.2.name
  have hkey : (doSplit cfg h data1 data2).key=h.hash u.2.name+
      (decide (h.hash u.2.name=h.hash l.2.name)).toNat := by
    unfold Split.key
    rw [hs.continued l hlast,hh]
  -- the records of a stretched block, back to the halves they are from
  have hlow {r : Record} (hr : r∈fillLast cfg.blocksize (lowerLive h rs)) (hlive : r.live=true) :
      ∃ x∈lowerHalf h rs,x.2.name=r.name := by
    have hm := mem_of_fillLast hr hlive
    rw [packed_lower,hl.mem_lowerLive] at hm
    obtain ⟨x,hx,he⟩ := hm
    exact ⟨x,hx,trim_name he⟩
  have hupp {r : Record} (hr : r∈fillLast cfg.blocksize (upperLive h rs)) (hlive : r.live=true) :
      ∃ x∈upperHalf h rs,x.2.name=r.name := by
    have hm := mem_of_fillLast hr hlive
    rw [packed_upper,mem_upperLive] at hm
    obtain ⟨x,hx,he⟩ := hm
    exact ⟨x,hx,trim_name he⟩
  refine ⟨_,_,hs.lower (List.ne_nil_of_mem hlo),hs.upper (List.ne_nil_of_mem hup),?_,?_,?_,?_,?_,
    hs.entries,hs.unread⟩
  · rw [packed_fillLast,packed_fillLast,packed_lower,packed_upper]
    exact hl.halves_perm
  · intro r hr hlive
    obtain ⟨x,hx,he⟩ := hlow hr hlive
    rw [hh,← he]
    exact halves_le hx hum
  · intro r hr hlive
    obtain ⟨x,hx,he⟩ := hupp hr hlive
    rw [hh,← he]
    exact upperHalf_head_le hhead hx
  · have hbit : (doSplit cfg h data1 data2).key%2=1 ↔ h.hash u.2.name=h.hash l.2.name := by
      rw [hkey]
      by_cases he : h.hash u.2.name=h.hash l.2.name
      · simp only [he,decide_true,Bool.toNat_true,iff_true]
        omega
      · simp only [he,decide_false,Bool.toNat_false,iff_false]
        omega
    rw [hbit,split_hash_occurs hlast hhead,hh]
    constructor
    · rintro ⟨x,hx,he⟩
      obtain ⟨r,hr,hrl,hrp⟩ := exists_fillLast (n := cfg.blocksize)
        (packed_lower h rs ▸ hl.mem_lowerLive.mpr ⟨x,hx,rfl⟩)
      obtain ⟨q,hq,hql,hqp⟩ := exists_fillLast (n := cfg.blocksize)
        (packed_upper h rs ▸ hup)
      have hrn : r.name=x.2.name := trim_name hrp
      have hqn : q.name=u.2.name := trim_name hqp
      exact ⟨⟨r,hr,hrl,by rw [hrn,he]⟩,q,hq,hql,by rw [hqn]⟩
    · rintro ⟨⟨r,hr,hrl,he⟩,-⟩
      obtain ⟨x,hx,hn⟩ := hlow hr hrl
      exact ⟨x,hx,by rw [hn,he]⟩
  · rw [hkey,hh]
    have := (decide (h.hash u.2.name=h.hash l.2.name)).toNat_le
    omega

theorem layRecords_from (rs : List Record) (o : ℕ) (m : Bytes)
    (hrs : ∀ r∈rs,r.inode<4294967296 ∧ r.recLen<65536 ∧ r.name.length<256 ∧
      dirRecLen r.name.length ≤ r.recLen) :
    let t := (rs.foldl (fun p r => (p.1+r.recLen,Bytes.store p.2 p.1 (r.image (fun _ => 0))))
      (o,m)).2
    Bytes.Agree m t 0 o ∧ ∀ x∈spots recLen o rs,readRecord t x.1=x.2 := by
  induction rs generalizing o m with
  | nil => exact ⟨fun _ _ _ => rfl,nofun⟩
  | cons r rs ih =>
    obtain ⟨⟨hi,hl,hn,hf⟩,hrs'⟩ := List.forall_mem_cons.mp hrs
    have hb := dirRecLen_bounds r.name.length
    obtain ⟨g1,g2⟩ := ih (o+r.recLen) (m.store o (r.image (fun _ => 0))) hrs'
    have hr := readRecord_store_image m o r (fun _ => 0) hi hl hn
    have hlow : Bytes.Agree m (m.store o (r.image (fun _ => 0))) 0 o :=
      m.store_agree _ _ (.inl (Nat.le_refl _))
    refine ⟨hlow.trans (g1.mono (Nat.le_refl _) (by omega)),?_⟩
    intro x hx
    rcases List.mem_cons.mp hx with rfl | hx
    · refine (readRecord_congr ?_).trans hr
      rw [hr]
      exact g1.mono (Nat.zero_le _) (by dsimp only; omega)
    · exact g2 x hx

theorem layRecords_leaf {rs : List Record}
    (hrs : ∀ r∈rs,r.inode<4294967296 ∧ r.recLen<65536 ∧ r.name.length<256 ∧
      dirRecLen r.name.length ≤ r.recLen)
    (hok : ∀ x∈spots recLen 0 rs,Record.Ok cfg x.1 x.2)
    (ht : total recLen rs=cfg.blocksize) : Leaf cfg (layRecords rs) rs := by
  have hl := (layRecords_from rs 0 (fun _ => 0) hrs).2
  exact ⟨(tiles_iff 0 rs).mpr (fun x hx => ⟨hl x hx,hok x hx⟩),ht⟩

def twoRecords : List Record := [⟨11,12,1,nameX.bytes⟩,⟨12,1012,1,nameA.bytes⟩]

theorem twoRecords_leaf : Leaf smallConfig (layRecords twoRecords) twoRecords :=
  layRecords_leaf (by decide +kernel) (by decide +kernel) (by decide +kernel)

theorem doSplit_correct_two :
    ∃ lo up,Leaf smallConfig (doSplit smallConfig (dirhash .tea ⟨0,0,0,0⟩) (layRecords twoRecords)
        (fun _ => 7)).data1 lo ∧
      Leaf smallConfig (doSplit smallConfig (dirhash .tea ⟨0,0,0,0⟩) (layRecords twoRecords)
        (fun _ => 7)).data2 up ∧ (packed lo++packed up).Perm (packed twoRecords) := by
  obtain ⟨lo,up,h1,h2,h3,-⟩ := doSplit_correct smallConfig (dirhash .tea ⟨0,0,0,0⟩)
    (layRecords twoRecords) (fun _ => 7) twoRecords twoRecords_leaf (by decide)
  exact ⟨lo,up,h1,h2,h3⟩

end Ext2fsX.Htree
