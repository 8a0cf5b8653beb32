import Ext2fsX.Directory.Insertion
import Ext2fsX.Framework.CombSort
import Ext2fsX.Htree.Hash

namespace Ext2fsX.Htree

open Framework Directory Record

/-- `struct dx_map_entry`: a live record of a leaf, by hash and place. -/
structure MapEntry where
  hash : ℕ
  offs : ℕ

def readEntry (m : Bytes) (o : ℕ) : MapEntry := ⟨m.le32 o,m.le32 (o+4)⟩

def MapEntry.image (e : MapEntry) : List UInt8 := Bytes.enc32 e.hash++Bytes.enc32 e.offs

def readMap (m : Bytes) : ℕ → ℕ → List MapEntry
  | _,0 => []
  | o,n+1 => readEntry m o::readMap m (o+8) n

def writeMap (m : Bytes) : ℕ → List MapEntry → Bytes
  | _,[] => m
  | o,e::es => writeMap (m.store o e.image) (o+8) es

/-- The block that takes the map, with `map_tail` and `count` of `dx_make_map`. -/
structure Mapping where
  data2 : Bytes
  tail : ℕ
  count : ℕ

def Mapping.add (s : Mapping) (e : MapEntry) : Mapping where
  data2 := s.data2.store (s.tail-8) e.image
  tail := s.tail-8
  count := s.count+1

/-- `dx_make_map`, from the record at `de` on. -/
def makeMap (h : Hashing) (data1 : Bytes) (size : ℕ) : ℕ → ℕ → Mapping → Mapping
  | 0,_,s => s
  | fuel+1,de,s =>
    if de < size then
      let r := readRecord data1 de
      let s := if r.name.length≠0 ∧ r.inode≠0 then s.add ⟨h.hash r.name,de⟩ else s
      makeMap h data1 size fuel (de+r.recLen) s
    else s

def sortMap (m : Bytes) (map count : ℕ) : Bytes :=
  writeMap m map (combSort MapEntry.hash (readMap m map count))

structure Leaf (cfg : Config) (m : Bytes) (rs : List Record) : Prop where
  tiles : Tiles recLen (readRecord m) (Record.Ok cfg) 0 rs
  total_eq : total recLen rs=cfg.blocksize

def liveSpots (o : ℕ) (rs : List Record) : List (ℕ × Record) :=
  (spots recLen o rs).filter (fun x => x.2.live)

/-- The live records of a leaf in the order that `dx_sort_map` gives them. -/
def sortedSpots (h : Hashing) (rs : List Record) : List (ℕ × Record) :=
  combSort (fun x => h.hash x.2.name) (liveSpots 0 rs).reverse

def entryOf (h : Hashing) (x : ℕ × Record) : MapEntry := ⟨h.hash x.2.name,x.1⟩

/-- The map that `dx_make_map` and `dx_sort_map` leave for the records `rs` of a leaf. -/
def leafMap (h : Hashing) (rs : List Record) : List MapEntry :=
  combSort MapEntry.hash ((liveSpots 0 rs).map (entryOf h)).reverse

section Entries

variable {m m' : Bytes}

theorem readEntry_congr {o : ℕ} (h : Bytes.Agree m m' o (o+8)) : readEntry m' o=readEntry m o := by
  unfold readEntry
  rw [h.le32 (by omega) (by omega),h.le32 (by omega) (by omega)]

theorem readMap_congr {o n : ℕ} (h : Bytes.Agree m m' o (o+8*n)) :
    readMap m' o n=readMap m o n := by
  induction n generalizing o with
  | zero => rfl
  | succ n ih =>
    simp only [readMap]
    rw [readEntry_congr (h.mono (Nat.le_refl o) (by omega)),ih (h.mono (by omega) (by omega))]

variable (m : Bytes)

@[simp] theorem readMap_length (o n : ℕ) : (readMap m o n).length=n := by
  induction n generalizing o with
  | zero => rfl
  | succ n ih => simp [readMap,ih]

theorem readMap_drop (o n k : ℕ) : (readMap m o n).drop k=readMap m (o+8*k) (n-k) := by
  induction k generalizing o n with
  | zero => simp
  | succ k ih =>
    cases n with
    | zero => simp [readMap]
    | succ n =>
      rw [readMap,List.drop_succ_cons,ih,Nat.add_sub_add_right,Nat.mul_succ]
      congr 1
      omega

theorem readMap_get {o n i : ℕ} (h : i<n) : (readMap m o n)[i]?=some (readEntry m (o+8*i)) := by
  obtain ⟨k,hk⟩ : ∃ k,n-i=k+1 := ⟨n-i-1,by omega⟩
  have hd := congrArg (fun l : List MapEntry => l[0]?) (readMap_drop m o n i)
  rw [hk] at hd
  simpa [readMap] using hd

@[simp] theorem MapEntry.image_length (e : MapEntry) : e.image.length=8 := rfl

theorem readEntry_store (o : ℕ) (e : MapEntry) (hh : e.hash<4294967296)
    (ho : e.offs<4294967296) : readEntry (m.store o e.image) o=e := by
  have h0 := m.store_le32 o 0 e.hash e.image rfl (by simp)
  have h4 := m.store_le32 o 4 e.offs e.image rfl (by simp)
  rw [Nat.mod_eq_of_lt hh,Nat.add_zero] at h0
  rw [Nat.mod_eq_of_lt ho] at h4
  unfold readEntry
  rw [h0,h4]

theorem writeMap_agree (o : ℕ) (es : List MapEntry) : Bytes.Agree m (writeMap m o es) 0 o := by
  induction es generalizing m o with
  | nil => exact fun _ _ _ => rfl
  | cons e es ih =>
    have hs : Bytes.Agree m (m.store o e.image) 0 o := m.store_agree _ _ (.inl (Nat.le_refl _))
    exact hs.trans ((ih (m.store o e.image) (o+8)).mono (Nat.le_refl _) (by omega))

theorem readMap_writeMap (o : ℕ) (es : List MapEntry)
    (h : ∀ e∈es,e.hash<4294967296 ∧ e.offs<4294967296) :
    readMap (writeMap m o es) o es.length=es := by
  induction es generalizing m o with
  | nil => rfl
  | cons e es ih =>
    obtain ⟨⟨hh,ho⟩,hes⟩ := List.forall_mem_cons.mp h
    have ha := writeMap_agree (m.store o e.image) (o+8) es
    rw [List.length_cons,readMap,writeMap,ih _ _ hes,
      readEntry_congr (ha.mono (Nat.zero_le _) (Nat.le_refl _)),readEntry_store m o e hh ho]

end Entries

section Making

variable {cfg : Config} {h : Hashing} {data1 : Bytes}

theorem Mapping.add_readMap (s : Mapping) (e : MapEntry) (ht : 8 ≤ s.tail) (hh : e.hash<4294967296)
    (ho : e.offs<4294967296) :
    readMap (s.add e).data2 (s.add e).tail (s.add e).count=e::readMap s.data2 s.tail s.count := by
  have hag : Bytes.Agree s.data2 (s.data2.store (s.tail-8) e.image) s.tail
      (s.tail+8*s.count) := s.data2.store_agree _ _ (.inr (by simp; omega))
  change readMap (s.data2.store (s.tail-8) e.image) (s.tail-8) (s.count+1)=_
  rw [readMap,readEntry_store _ _ _ hh ho,Nat.sub_add_cancel ht,readMap_congr hag]

theorem named_iff_live {o : ℕ} {r : Record} (hr : Record.Ok cfg o r) :
    (r.name.length≠0 ∧ r.inode≠0) ↔ r.live=true := by
  constructor
  · rintro ⟨-,hi⟩
    simpa [Record.live] using hi
  · intro hl
    exact ⟨fun h0 => hr.named hl (List.length_eq_zero_iff.mp h0),by simpa [Record.live] using hl⟩

variable {rs : List Record}

theorem makeMap_spec {size fuel de : ℕ} {s : Mapping} (hs32 : size≤65536)
    (ht : Tiles recLen (readRecord data1) (Record.Ok cfg) de rs)
    (hsize : de+total recLen rs=size) (hf : rs.length≤fuel)
    (hroom : 8*(liveSpots de rs).length ≤ s.tail) :
    let t := makeMap h data1 size fuel de s
    readMap t.data2 t.tail t.count=
        ((liveSpots de rs).map (entryOf h)).reverse++readMap s.data2 s.tail s.count ∧
      t.count=s.count+(liveSpots de rs).length ∧ t.tail=s.tail-8*(liveSpots de rs).length := by
  induction rs generalizing de fuel s with
  | nil =>
    have hlt : ¬de < size := by simp at hsize; omega
    have he : makeMap h data1 size fuel de s=s := by
      cases fuel with
      | zero => rfl
      | succ fuel => simp [makeMap,hlt]
    rw [he]
    simp [liveSpots,spots]
  | cons r rs ih =>
    obtain ⟨h1,h2,h3⟩ := ht
    rw [total_cons] at hsize
    have hpos := h2.pos
    have hlt : de < size := by omega
    obtain ⟨fuel,rfl⟩ : ∃ f,fuel=f+1 := ⟨fuel-1,by simp at hf; omega⟩
    have hf' : rs.length≤fuel := by simpa using hf
    rw [makeMap,if_pos hlt,h1]
    dsimp only
    by_cases hl : r.live=true
    · rw [if_pos ((named_iff_live h2).mpr hl)]
      have hls : liveSpots de (r::rs)=(de,r)::liveSpots (de+r.recLen) rs := by
        simp [liveSpots,spots,hl]
      rw [hls,List.length_cons] at hroom
      have hb := h.below r.name
      have hadd := s.add_readMap ⟨h.hash r.name,de⟩ (by omega) (by dsimp only; omega)
        (by dsimp only; omega)
      obtain ⟨g1,g2,g3⟩ := @ih fuel (de+r.recLen) (s.add ⟨h.hash r.name,de⟩) h3 (by omega) hf'
        (by dsimp only [Mapping.add]; omega)
      rw [hls,List.length_cons]
      refine ⟨?_,?_,?_⟩
      · rw [g1,hadd]
        simp [entryOf]
      · rw [g2]
        dsimp only [Mapping.add]
        omega
      · rw [g3]
        dsimp only [Mapping.add]
        omega
    · rw [if_neg (fun hc => hl ((named_iff_live h2).mp hc))]
      have hls : liveSpots de (r::rs)=liveSpots (de+r.recLen) rs := by
        simp [liveSpots,spots,hl]
      rw [hls] at hroom ⊢
      exact ih h3 (by omega) hf' hroom

theorem trim_twelve {xs : List (ℕ × Record)} (hn : ∀ x∈xs,x.2.name≠[]) :
    12*xs.length≤total recLen (xs.map (fun x => x.2.trim)) := by
  induction xs with
  | nil => simp
  | cons y ys ih =>
    obtain ⟨hy,hys⟩ := List.forall_mem_cons.mp hn
    have hpos := List.length_pos_iff.mpr hy
    have hb := dirRecLen_bounds y.2.name.length
    have hpk : y.2.trim.recLen=dirRecLen y.2.name.length := rfl
    have := ih hys
    rw [List.length_cons,List.map_cons,total_cons,hpk]
    omega

theorem trim_room {o : ℕ} (ht : Tiles recLen (readRecord data1) (Record.Ok cfg) o rs) :
    total recLen ((liveSpots o rs).map (fun x => x.2.trim))≤total recLen rs := by
  induction rs generalizing o with
  | nil => simp [liveSpots,spots]
  | cons r rs ih =>
    obtain ⟨-,h2,h3⟩ := ht
    have hi := ih h3
    rw [total_cons]
    by_cases hl : r.live=true
    · have hls : liveSpots o (r::rs)=(o,r)::liveSpots (o+r.recLen) rs := by
        simp [liveSpots,spots,hl]
      have hfit := h2.fits
      have hpk : r.trim.recLen=dirRecLen r.name.length := rfl
      rw [hls,List.map_cons,total_cons,hpk]
      omega
    · have hls : liveSpots o (r::rs)=liveSpots (o+r.recLen) rs := by
        simp [liveSpots,spots,hl]
      rw [hls]
      omega

theorem leafMap_eq (rs : List Record) : leafMap h rs=(sortedSpots h rs).map (entryOf h) := by
  unfold leafMap sortedSpots
  rw [← List.map_reverse,combSort_map]
  rfl

theorem mem_liveSpots {o : ℕ} {x : ℕ × Record} :
    x∈liveSpots o rs ↔ x∈spots recLen o rs ∧ x.2.live=true :=
  List.mem_filter

theorem sortedSpots_perm (rs : List Record) : (sortedSpots h rs).Perm (liveSpots 0 rs) :=
  (combSort_perm _).trans (liveSpots 0 rs).reverse_perm

theorem mem_sortedSpots {x : ℕ × Record} :
    x∈sortedSpots h rs ↔ x∈spots recLen 0 rs ∧ x.2.live=true := by
  rw [(sortedSpots_perm rs).mem_iff,mem_liveSpots]

theorem Leaf.ok (hl : Leaf cfg data1 rs) :
    ∀ x∈spots recLen 0 rs,readRecord data1 x.1=x.2 ∧ Record.Ok cfg x.1 x.2 :=
  (tiles_iff 0 rs).mp hl.tiles

theorem Leaf.twelve (hl : Leaf cfg data1 rs) : 12*(liveSpots 0 rs).length≤
      total recLen ((liveSpots 0 rs).map (fun x => x.2.trim)) := by
  apply trim_twelve
  intro x hx
  obtain ⟨hx,hlive⟩ := mem_liveSpots.mp hx
  exact (hl.ok x hx).2.named hlive

theorem Leaf.readMap_sortMap (hl : Leaf cfg data1 rs) (data2 : Bytes) :
    let s := makeMap h data1 cfg.blocksize cfg.blocksize 0 ⟨data2,cfg.blocksize,0⟩
    s.count=(liveSpots 0 rs).length ∧ readMap (sortMap s.data2 (cfg.blocksize-8*s.count) s.count)
        (cfg.blocksize-8*s.count) s.count=leafMap h rs := by
  have hbs := cfg.blocksize_bounds
  have hroom := trim_room hl.tiles
  have htwelve := hl.twelve
  have htot := hl.total_eq
  have hlen := hl.tiles.length_le (fun _ _ hr => hr.pos)
  obtain ⟨h1,h2,h3⟩ := @makeMap_spec cfg h data1 rs cfg.blocksize cfg.blocksize 0
    ⟨data2,cfg.blocksize,0⟩ (by omega) hl.tiles (by omega) (by omega) (by dsimp only; omega)
  generalize makeMap h data1 cfg.blocksize cfg.blocksize 0 ⟨data2,cfg.blocksize,0⟩=s at *
  have hc : s.count=(liveSpots 0 rs).length := by simpa using h2
  have ht : cfg.blocksize-8*s.count=s.tail := by rw [hc,h3]
  have hm : readMap s.data2 s.tail s.count=((liveSpots 0 rs).map (entryOf h)).reverse := by
    simpa [readMap] using h1
  have hlm : (leafMap h rs).length=s.count := by
    rw [leafMap_eq,List.length_map,(sortedSpots_perm rs).length_eq,hc]
  have hsm : sortMap s.data2 s.tail s.count=writeMap s.data2 s.tail (leafMap h rs) := by
    unfold sortMap
    rw [hm]
    rfl
  refine ⟨hc,?_⟩
  rw [ht,hsm,← hlm]
  apply readMap_writeMap
  intro e he
  rw [leafMap_eq] at he
  obtain ⟨x,hx,rfl⟩ := List.mem_map.mp he
  have hx' := spots_bounds (mem_sortedSpots.mp hx).1
  have hb := h.below x.2.name
  unfold entryOf
  dsimp only
  omega

end Making

end Ext2fsX.Htree
