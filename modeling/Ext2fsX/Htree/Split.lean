import Ext2fsX.Htree.Map

namespace Ext2fsX.Htree

open Framework Directory Record

/-- The entry of the map that a round read, where that stood, and where the record went. -/
structure Move where
  entry : MapEntry
  map : ℕ
  dst : ℕ
  recLen : ℕ

/-- Both blocks with `map`, `to` (as `dst`) and `rec_len`, and the rounds so far. -/
structure Moving where
  data1 : Bytes
  data2 : Bytes
  map : ℕ
  dst : ℕ
  recLen : ℕ
  moves : List Move

def moveDirent (s : Moving) : Moving :=
  let e := readEntry s.data2 s.map
  let recLen := dirRecLen (s.data1 (e.offs+6)).toNat
  { data1 := s.data1.store e.offs (Bytes.enc32 0)
    data2 := (s.data2.store s.dst (s.data1.slice e.offs recLen)).store (s.dst+4)
      (Bytes.enc16 recLen)
    map := s.map+8
    dst := s.dst+recLen
    recLen := recLen
    moves := s.moves++[⟨e,s.map,s.dst,recLen⟩] }

def moveDirents : ℕ → Moving → Moving
  | 0,s => s
  | count+1,s => moveDirents count (moveDirent s)

/-- The block with `to` (as `dst`) and `prev` of `dx_pack_dirents`. -/
structure Packing where
  m : Bytes
  dst : ℕ
  prev : ℕ

def Packing.take (s : Packing) (de recLen : ℕ) : Packing where
  m := (if s.dst<de then s.m.copy de s.dst recLen else s.m).store (s.dst+4) (Bytes.enc16 recLen)
  dst := s.dst+recLen
  prev := s.dst

def packDirents (size : ℕ) : ℕ → ℕ → Packing → Packing
  | 0,_,s => s
  | fuel+1,de,s =>
    if de < size then
      let r := readRecord s.m de
      packDirents size fuel (de+r.recLen)
        (if r.inode≠0 ∧ r.name.length≠0 then s.take de (dirRecLen r.name.length) else s)
    else s

/-- What `do_split` leaves: the two blocks, their last records, and the key of the new one. -/
structure Split where
  data1 : Bytes
  data2 : Bytes
  de : ℕ
  de2 : ℕ
  hash2 : ℕ
  continued : Bool
  moves : List Move

def Split.key (s : Split) : ℕ := s.hash2+s.continued.toNat

def doSplit (cfg : Config) (h : Hashing) (data1 data2 : Bytes) : Split :=
  let s := makeMap h data1 cfg.blocksize cfg.blocksize 0 ⟨data2,cfg.blocksize,0⟩
  let map := cfg.blocksize-8*s.count
  let split := s.count/2
  let m := sortMap s.data2 map s.count
  let hash2 := (readEntry m (map+8*split)).hash
  let continued := decide (hash2=(readEntry m (map+8*split-8)).hash)
  let mv := moveDirents (s.count-split) ⟨data1,m,map+8*split,0,0,[]⟩
  let de2 := mv.dst-mv.recLen
  let pk := packDirents cfg.blocksize cfg.blocksize 0 ⟨mv.data1,0,0⟩
  { data1 := pk.m.store (pk.prev+4) (Bytes.enc16 (cfg.blocksize-pk.prev))
    data2 := mv.data2.store (de2+4) (Bytes.enc16 (cfg.blocksize-de2))
    de := pk.prev
    de2 := de2
    hash2 := hash2
    continued := continued
    moves := mv.moves }

variable {rs : List Record}

section Moves

variable {cfg : Config}

theorem mod_add_le {o n : ℕ} (hn : 0<n) (h : o+n ≤ cfg.blocksize) :
    o%cfg.blocksize+n ≤ cfg.blocksize := by
  rw [Nat.mod_eq_of_lt (by omega)]
  exact h

theorem readRecord_store_slice (m m' : Bytes) (o dst n : ℕ)
    (h : 8+(readRecord m' o).name.length≤n) :
    readRecord (m.store dst (m'.slice o n)) dst=readRecord m' o := by
  refine readRecord_moved (fun i hi => ?_) h
  rw [m.store_at dst _ i (by simpa using hi),List.getD_eq_getElem _ _ (by simpa using hi)]
  simp [Bytes.slice]

def Cleared (m : Bytes) (rs : List Record) (done : List ℕ) : Prop :=
  ∀ x∈spots recLen 0 rs,
    readRecord m x.1=if x.1∈done then { x.2 with inode := 0 } else x.2

variable {done : List ℕ} {x : ℕ × Record}

variable {m : Bytes}

theorem Cleared.name_eq (h : Cleared m rs done) (hx : x∈spots recLen 0 rs) : (readRecord m x.1).name=x.2.name := by
  rw [h x hx]
  split <;> rfl

theorem Cleared.store (h : Cleared m rs done)
    (hok : ∀ x∈spots recLen 0 rs,Record.Ok cfg x.1 x.2) (hx : x∈spots recLen 0 rs) :
    Cleared (m.store x.1 (Bytes.enc32 0)) rs (x.1::done) := by
  intro y hy
  rcases spots_apart hx hy with rfl | hap
  · rw [readRecord_store_inode m x.1 0 (by decide),h x hx,if_pos List.mem_cons_self]
    split <;> rfl
  have hfx := (hok x hx).fits
  have hfy := (hok y hy).fits
  have hbx := dirRecLen_bounds x.2.name.length
  have hby := dirRecLen_bounds y.2.name.length
  have hne : y.1≠x.1 := by omega
  have hag : Bytes.Agree m (m.store x.1 (Bytes.enc32 0)) y.1
      (y.1+8+(readRecord m y.1).name.length) := by
    rw [h.name_eq hy]
    apply m.store_agree
    rw [Bytes.enc32_length]
    omega
  rw [readRecord_congr hag,h y hy]
  simp [hne]

theorem Cleared.congr {done done' : List ℕ} (h : Cleared m rs done)
    (he : ∀ o,o∈done' ↔ o∈done) : Cleared m rs done' := by
  intro x hx
  rw [h x hx]
  simp only [he]

structure Moved (cfg : Config) (h : Hashing) (rs : List Record) (done : List ℕ)
    (xs : List (ℕ × Record)) (s t : Moving) : Prop where
  cleared : Cleared t.data1 rs (xs.map Prod.fst++done)
  agree : Bytes.Agree s.data2 t.data2 0 s.dst
  tiles : Tiles recLen (readRecord t.data2) (Record.Ok cfg) s.dst
    (xs.map (fun x => x.2.trim))
  last : t.dst-t.recLen=
    lastSpot recLen (s.dst-s.recLen) s.dst (xs.map (fun x => x.2.trim))
  entries : t.moves.map Move.entry=s.moves.map Move.entry++xs.map (entryOf h)
  unread : (∀ v∈s.moves,v.dst+v.recLen ≤ v.map+8) → ∀ v∈t.moves,v.dst+v.recLen ≤ v.map+8

section

variable (hok : ∀ x∈spots recLen 0 rs,Record.Ok cfg x.1 x.2)

include hok

theorem moveDirent_spec {h : Hashing} {s : Moving} (hc : Cleared s.data1 rs done)
    (hx : x∈spots recLen 0 rs) (hdone : x.1∉done)
    (hmap : readEntry s.data2 s.map=entryOf h x) :
    let L := dirRecLen x.2.name.length
    let t := moveDirent s
    t.dst=s.dst+L ∧ t.recLen=L ∧ t.map=s.map+8 ∧
      t.moves=s.moves++[⟨entryOf h x,s.map,s.dst,L⟩] ∧ Cleared t.data1 rs (x.1::done) ∧
      readRecord t.data2 s.dst=x.2.trim ∧ Bytes.Agree s.data2 t.data2 0 s.dst ∧
      ∀ e,Bytes.Agree s.data2 t.data2 (s.dst+L) e := by
  have hb := dirRecLen_bounds x.2.name.length
  have hr : readRecord s.data1 x.1=x.2 := by rw [hc x hx,if_neg hdone]
  have hn : (s.data1 (x.1+6)).toNat=x.2.name.length := by
    rw [← hr]
    simp [readRecord]
  have hlt : dirRecLen x.2.name.length<65536 := by
    have := readRecord_name_lt s.data1 x.1
    rw [hr] at this
    omega
  unfold moveDirent
  rw [hmap]
  dsimp only [entryOf]
  rw [hn]
  refine ⟨rfl,rfl,rfl,rfl,hc.store hok hx,?_,?_,?_⟩
  · rw [readRecord_store_recLen _ _ _ hlt,readRecord_store_slice _ _ _ _ _ (by rw [hr]; omega),hr]
    rfl
  · have h1 : Bytes.Agree s.data2 (s.data2.store s.dst
        (s.data1.slice x.1 (dirRecLen x.2.name.length))) 0 s.dst :=
      s.data2.store_agree _ _ (.inl (Nat.le_refl _))
    exact h1.trans (Bytes.store_agree _ _ _ (.inl (by omega)))
  · intro e
    have h1 : Bytes.Agree s.data2 (s.data2.store s.dst
        (s.data1.slice x.1 (dirRecLen x.2.name.length)))
        (s.dst+dirRecLen x.2.name.length) e :=
      s.data2.store_agree _ _ (.inr (by simp))
    exact h1.trans (Bytes.store_agree _ _ _ (.inr (by simp; omega)))

/-- Records of at least twelve bytes go to the front and eight bytes of map are read at the end for
each, so what is unread is never reached. -/
theorem moveDirents_spec {h : Hashing} {xs : List (ℕ × Record)} {s : Moving} (hc : Cleared s.data1 rs done)
    (hxs : ∀ x∈xs,x∈spots recLen 0 rs ∧ x.2.live=true) (hnd : (xs.map Prod.fst).Nodup)
    (hdone : ∀ x∈xs,x.1∉done) (hmap : readMap s.data2 s.map xs.length=xs.map (entryOf h))
    (hend : s.map+8*xs.length=cfg.blocksize)
    (hroom : s.dst+total recLen (xs.map (fun x => x.2.trim)) ≤ cfg.blocksize) :
    Moved cfg h rs done xs s (moveDirents xs.length s) := by
  induction xs generalizing s done with
  | nil => exact ⟨hc,fun _ _ _ => rfl,trivial,rfl,by simp [moveDirents],id⟩
  | cons x xs ih =>
    obtain ⟨⟨hx,hlive⟩,hxs'⟩ := List.forall_mem_cons.mp hxs
    obtain ⟨hxd,hdone'⟩ := List.forall_mem_cons.mp hdone
    obtain ⟨hxn,hnd'⟩ := List.nodup_cons.mp hnd
    obtain ⟨hhead,htail⟩ := List.cons_eq_cons.mp hmap
    obtain ⟨t1,t2,t3,t4,t5,t6,t7,t8⟩ := moveDirent_spec hok hc hx hxd hhead
    have hbx := dirRecLen_bounds x.2.name.length
    have hlen := trim_twelve (fun y hy => (hok y (hxs' y hy).1).named (hxs' y hy).2)
    rw [List.map_cons,total_cons] at hroom
    rw [List.length_cons] at hend
    have hpk : x.2.trim.recLen=dirRecLen x.2.name.length := rfl
    have hbound : s.dst+dirRecLen x.2.name.length ≤ s.map+8 := by omega
    have hm := @ih (x.1::done) (moveDirent s) t5 hxs' hnd' (by
        intro y hy hyd
        rcases List.mem_cons.mp hyd with he | hyd
        · exact hxn (he ▸ List.mem_map_of_mem hy)
        · exact hdone' y hy hyd)
      (by rw [t3,readMap_congr ((t8 (s.map+8+8*xs.length)).mono hbound (Nat.le_refl _)),htail])
      (by omega) (by omega)
    rw [List.length_cons,moveDirents]
    have hag := hm.agree
    refine ⟨?_,?_,?_,?_,?_,?_⟩
    · apply hm.cleared.congr
      intro o
      simp only [List.map_cons,List.cons_append,List.mem_cons,List.mem_append]
      exact or_left_comm
    · exact t7.trans (hag.mono (Nat.le_refl _) (by omega))
    · refine ⟨?_,(hok x hx).trim hlive (mod_add_le (by omega) (by omega)),?_⟩
      · have hcp : Bytes.Agree (moveDirent s).data2 (moveDirents xs.length (moveDirent s)).data2
            s.dst (s.dst+8+(readRecord (moveDirent s).data2 s.dst).name.length) := by
          rw [t6]
          exact hag.mono (Nat.zero_le _) (by dsimp only [Record.trim]; omega)
        exact (readRecord_congr hcp).trans t6
      · have ht := hm.tiles
        rw [t1] at ht
        exact ht
    · rw [hm.last,t1,t2,Nat.add_sub_cancel]
      rfl
    · rw [hm.entries,t4]
      simp
    · intro hs
      apply hm.unread
      rw [t4]
      intro v hv
      rcases List.mem_append.mp hv with hv | hv
      · exact hs v hv
      · obtain rfl := List.mem_singleton.mp hv
        exact hbound

end

end Moves

section Packs

variable {cfg : Config}

/-- One record of `dx_pack_dirents`, which may overlap its new place. -/
theorem Packing.take_spec {s : Packing} {de : ℕ} {r : Record} (hr : readRecord s.m de=r)
    (hto : s.dst≤de) :
    let L := dirRecLen r.name.length
    readRecord (s.take de L).m s.dst=r.trim ∧ Bytes.Agree s.m (s.take de L).m 0 s.dst ∧
      ∀ e,Bytes.Agree s.m (s.take de L).m (s.dst+L) e := by
  have hb := dirRecLen_bounds r.name.length
  have hlt : dirRecLen r.name.length<65536 := by
    have := readRecord_name_lt s.m de
    rw [hr] at this
    omega
  have hcopy : readRecord (if s.dst<de then s.m.copy de s.dst (dirRecLen r.name.length) else s.m)
      s.dst=r := by
    split
    · rw [readRecord_copy _ _ _ _ (by rw [hr]; omega),hr]
    · rw [show s.dst=de by omega,hr]
  have hlow : Bytes.Agree s.m
      (if s.dst<de then s.m.copy de s.dst (dirRecLen r.name.length) else s.m) 0 s.dst := by
    split
    · exact s.m.copy_agree _ _ _ (.inl (Nat.le_refl _))
    · exact fun _ _ _ => rfl
  have hhigh (e : ℕ) : Bytes.Agree s.m
      (if s.dst<de then s.m.copy de s.dst (dirRecLen r.name.length) else s.m)
      (s.dst+dirRecLen r.name.length) e := by
    split
    · exact s.m.copy_agree _ _ _ (.inr (Nat.le_refl _))
    · exact fun _ _ _ => rfl
  unfold Packing.take
  refine ⟨?_,?_,?_⟩
  · rw [readRecord_store_recLen _ _ _ hlt,hcopy]
    rfl
  · exact hlow.trans (Bytes.store_agree _ _ _ (.inl (by omega)))
  · exact fun e => (hhigh e).trans (Bytes.store_agree _ _ _ (.inr (by simp; omega)))

/-- The whole of `dx_pack_dirents`: what has not been looked at is never written. -/
theorem packDirents_spec {size fuel de : ℕ} {s : Packing}
    (ht : Tiles recLen (readRecord s.m) (Record.Ok cfg) de rs)
    (hsize : de+total recLen rs=size) (hbs : size ≤ cfg.blocksize) (hf : rs.length≤fuel)
    (hto : s.dst≤de) :
    let t := packDirents size fuel de s
    Bytes.Agree s.m t.m 0 s.dst ∧ Tiles recLen (readRecord t.m) (Record.Ok cfg) s.dst (packed rs) ∧
      t.prev=lastSpot recLen s.prev s.dst (packed rs) := by
  induction rs generalizing de fuel s with
  | nil =>
    have hlt : ¬de < size := by simp at hsize; omega
    have he : packDirents size fuel de s=s := by
      cases fuel with
      | zero => rfl
      | succ fuel => simp [packDirents,hlt]
    rw [he]
    exact ⟨fun _ _ _ => rfl,trivial,rfl⟩
  | cons r rs ih =>
    obtain ⟨h1,h2,h3⟩ := ht
    rw [total_cons] at hsize
    have hpos := h2.pos
    have hlt : de < size := by omega
    obtain ⟨fuel,rfl⟩ : ∃ f,fuel=f+1 := ⟨fuel-1,by simp at hf; omega⟩
    have hf' : rs.length≤fuel := by simpa using hf
    rw [packDirents,if_pos hlt,h1]
    dsimp only
    by_cases hl : r.live=true
    · rw [if_pos (and_comm.mp ((named_iff_live h2).mpr hl))]
      have hfit := h2.fits
      have hbr := dirRecLen_bounds r.name.length
      obtain ⟨t1,t2,t3⟩ := Packing.take_spec h1 hto
      have h3' : Tiles recLen (readRecord (s.take de (dirRecLen r.name.length)).m)
          (Record.Ok cfg) (de+r.recLen) rs := by
        apply h3.congr
        intro p q hp _ hq hqo
        rw [← hq]
        apply readRecord_congr
        exact (t3 _).mono (by omega) (Nat.le_refl _)
      obtain ⟨g1,g2,g3⟩ := ih h3' (by omega) hf'
        (by dsimp only [Packing.take]; omega)
      have hlive : packed (r::rs)=r.trim::packed rs := by simp [packed,hl]
      rw [hlive]
      refine ⟨?_,⟨?_,h2.trim hl (mod_add_le (by omega) (by omega)),g2⟩,g3⟩
      · exact t2.trans (g1.mono (Nat.le_refl _) (by dsimp only [Packing.take]; omega))
      · refine (readRecord_congr ?_).trans t1
        rw [t1]
        exact g1.mono (Nat.zero_le _) (by dsimp only [Packing.take,Record.trim]; omega)
    · rw [if_neg (fun hc => hl ((named_iff_live h2).mp (and_comm.mp hc)))]
      have hlive : packed (r::rs)=packed rs := by simp [packed,hl]
      rw [hlive]
      exact ih h3 (by omega) hf' (by omega)

theorem packDirents_nil {size fuel de : ℕ} {s : Packing}
    (ht : Tiles recLen (readRecord s.m) (Record.Ok cfg) de rs)
    (hsize : de+total recLen rs=size) (hd : packed rs=[]) :
    packDirents size fuel de s=s := by
  induction rs generalizing de fuel with
  | nil =>
    have hlt : ¬de < size := by simp at hsize; omega
    cases fuel with
    | zero => rfl
    | succ fuel => simp [packDirents,hlt]
  | cons r rs ih =>
    obtain ⟨h1,h2,h3⟩ := ht
    rw [total_cons] at hsize
    have hl : ¬r.live=true := by
      intro hl
      simp [packed,hl] at hd
    have hrs : packed rs=[] := by simpa [packed,hl] using hd
    cases fuel with
    | zero => rfl
    | succ fuel =>
      rw [packDirents,h1]
      dsimp only
      rw [if_neg (fun hc : r.inode≠0 ∧ r.name.length≠0 =>
        hl ((named_iff_live h2).mp (and_comm.mp hc)))]
      split
      · exact ih h3 (by omega) hrs
      · rfl

def fillLast (blocksize : ℕ) (qs : List Record) : List Record :=
  qs.dropLast++(qs.getLast?.map
    (fun r => { r with recLen := blocksize-total recLen qs.dropLast })).toList

theorem fillLast_concat (n : ℕ) (qs : List Record) (r : Record) :
    fillLast n (qs++[r])=qs++[{ r with recLen := n-total recLen qs }] := by
  simp [fillLast]

theorem stretch_ok {o : ℕ} {r : Record} (h : Record.Ok cfg o r) (h4 : o%4=0)
    (ho : o+r.recLen ≤ cfg.blocksize) :
    Record.Ok cfg o { r with recLen := cfg.blocksize-o } where
  min := by
    have := h.min
    dsimp only
    omega
  four := by
    have := Nat.mod_eq_zero_of_dvd cfg.four_dvd_blocksize
    dsimp only
    omega
  fits := by
    have := h.fits
    dsimp only
    omega
  block := by
    have := h.pos
    rw [Nat.mod_eq_of_lt (by omega)]
    dsimp only
    omega
  inode := h.inode
  named := h.named

/-- `de->rec_len = cpu_to_le16(data + blocksize - (char *) de)` at the last record. -/
theorem leaf_fillLast {m : Bytes} {qs : List Record} (hne : qs≠[])
    (ht : Tiles recLen (readRecord m) (Record.Ok cfg) 0 qs)
    (hroom : total recLen qs ≤ cfg.blocksize) :
    Leaf cfg (m.store (lastSpot recLen 0 0 qs+4)
      (Bytes.enc16 (cfg.blocksize-lastSpot recLen 0 0 qs)))
      (fillLast cfg.blocksize qs) := by
  obtain ⟨xs,r,rfl⟩ := (List.eq_nil_or_concat qs).resolve_left hne
  rw [List.concat_eq_append] at ht hroom ⊢
  rw [lastSpot_concat,fillLast_concat,Nat.zero_add]
  obtain ⟨hxs,hr,hok,-⟩ := (tiles_append 0 xs [r]).mp ht
  rw [Nat.zero_add] at hr hok
  rw [total_append,total_cons,total_nil,Nat.add_zero] at hroom
  have hbs := cfg.blocksize_bounds
  constructor
  · rw [tiles_append]
    refine ⟨?_,?_⟩
    · apply hxs.congr
      intro p q _ hp hq hqo
      rw [← hq]
      apply readRecord_congr
      have hqf := hqo.fits
      have hqb := dirRecLen_bounds q.name.length
      rw [hq]
      exact m.store_agree _ _ (.inl (by omega))
    · rw [Nat.zero_add]
      refine ⟨?_,stretch_ok hok (total_four hxs) hroom,trivial⟩
      rw [readRecord_store_recLen m _ _ (by omega),hr]
  · rw [total_append,total_cons,total_nil]
    dsimp only
    omega

theorem packed_fillLast (n : ℕ) (qs : List Record) : packed (fillLast n qs)=packed qs := by
  rcases List.eq_nil_or_concat qs with rfl | ⟨xs,r,rfl⟩
  · rfl
  rw [List.concat_eq_append,fillLast_concat]
  unfold packed
  rw [List.filter_append,List.filter_append,List.map_append,List.map_append]
  congr 1
  by_cases hl : r.live=true
  · have hl' : ({ r with recLen := n-total recLen xs } : Record).live=true := hl
    rw [List.filter_cons_of_pos hl,List.filter_cons_of_pos hl']
    rfl
  · have hl' : ¬({ r with recLen := n-total recLen xs } : Record).live=true := hl
    rw [List.filter_cons_of_neg hl,List.filter_cons_of_neg hl']

end Packs

end Ext2fsX.Htree
