import Ext2fsX.Directory.FirstFit
import Ext2fsX.Htree.Updates

namespace Ext2fsX.Htree

open Framework Directory Record

variable {cfg : Config} {m : Bytes} {rs : List Record}

variable {need o p : ℕ}

theorem readRecord_moved {m' : Bytes} (h : ∀ i<8+(readRecord m o).name.length,m' (p+i)=m (o+i)) :
    readRecord m' p=readRecord m o := by
  generalize hn : 8+(readRecord m o).name.length=n at h
  have hs := readRecord_store_slice m' m o p n (by omega)
  rw [← hs]
  apply readRecord_congr
  rw [hs]
  intro i hi hin
  obtain ⟨j,rfl⟩ := Nat.exists_eq_add_of_le hi
  rw [h j (by omega),m'.store_at p (m.slice o n) j (by simp; omega),
    List.getD_eq_getElem _ _ (by simp; omega)]
  simp [Bytes.slice]

theorem tiles_moved {m' : Bytes} (ht : Tiles recLen (readRecord m) (Record.Ok cfg) o rs)
    (hc : ∀ i<total recLen rs,m' (p+i)=m (o+i))
    (hp : p+total recLen rs ≤ cfg.blocksize) :
    Tiles recLen (readRecord m') (Record.Ok cfg) p rs := by
  induction rs generalizing o p with
  | nil => trivial
  | cons r rs ih =>
    obtain ⟨hr,hok,hrest⟩ := ht
    rw [total_cons] at hc hp
    have hb := dirRecLen_bounds r.name.length
    have hfit := hok.fits
    refine ⟨?_,?_,?_⟩
    · rw [← hr]
      apply readRecord_moved
      rw [hr]
      exact fun i hi => hc i (by omega)
    · have hle := Nat.mod_le p cfg.blocksize
      exact ⟨hok.min,hok.four,hok.fits,by omega,hok.inode,hok.named⟩
    · apply ih hrest
      · intro i hi
        rw [Nat.add_assoc,Nat.add_assoc]
        exact hc (r.recLen+i) (by omega)
      · omega

theorem lastRecord_eq {top fuel de : ℕ} (hne : rs≠[])
    (ht : Tiles recLen (readRecord m) (Record.Ok cfg) de rs)
    (htop : de+total recLen rs=top) (hf : rs.length≤fuel) :
    lastRecord m top fuel de=lastSpot recLen p de rs := by
  induction rs generalizing fuel de p with
  | nil => exact absurd rfl hne
  | cons r rs ih =>
    obtain ⟨hr,hok,hrest⟩ := ht
    rw [total_cons] at htop
    rw [List.length_cons] at hf
    cases fuel with
    | zero => omega
    | succ fuel =>
      unfold lastRecord lastSpot
      rw [hr]
      cases rs with
      | nil =>
        rw [total_nil] at htop
        rw [if_neg (by omega)]
        rfl
      | cons q rs =>
        have hq := hrest.2.1.pos
        rw [total_cons] at htop
        rw [if_pos (by omega)]
        exact ih (List.cons_ne_nil q rs) hrest (by rw [total_cons]; omega) (by omega)

theorem moveOut_leaf {dot dotdot : Record} (hl : Leaf cfg m (dot::dotdot::rs))
    (hdot : dot.recLen=12) (hne : rs≠[]) (fresh : Bytes) :
    Leaf cfg (moveOut cfg m fresh) (fillLast cfg.blocksize rs) := by
  obtain ⟨-,-,h12,-,hrest⟩ := hl.tiles
  have htot := hl.total_eq
  rw [total_cons,total_cons] at htot
  rw [hdot,Nat.zero_add] at h12 hrest
  unfold moveOut
  rw [h12]
  dsimp only
  have hsize : cfg.blocksize-(12+dotdot.recLen)=total recLen rs := by omega
  rw [hsize]
  have ht : Tiles recLen
      (readRecord (fresh.store 0 (m.slice (12+dotdot.recLen) (total recLen rs))))
      (Record.Ok cfg) 0 rs := by
    apply tiles_moved hrest
    · intro i hi
      rw [fresh.store_at 0 _ i (by simpa using hi),List.getD_eq_getElem _ _ (by simpa using hi)]
      simp [Bytes.slice]
    · omega
  have hlen := ht.length_le (fun _ _ hr => hr.pos)
  rw [lastRecord_eq (p := 0) hne ht (Nat.zero_add _) (by omega)]
  exact leaf_fillLast hne ht (by omega)

def freeSpace (rs : List Record) : ℕ := (rs.map Record.free).sum

theorem free_of_roomyRun {free : ℕ} {start : Option ℕ}
    (ht : Tiles recLen (readRecord m) (Record.Ok cfg) o rs) (ho : 0<o)
    (hsize : o+total recLen rs ≤ cfg.blocksize) (hfree : free<need)
    (hnone : roomyRun cfg need o start free rs=none) : free+freeSpace rs<need := by
  induction rs generalizing o start free with
  | nil => simpa [freeSpace] using hfree
  | cons r rs ih =>
    obtain ⟨-,hok,hrest⟩ := ht
    have hpos := hok.pos
    rw [total_cons] at hsize
    have hmod : o%cfg.blocksize≠0 := by
      rw [Nat.mod_eq_of_lt (by omega)]
      omega
    have hsum : freeSpace (r::rs)=r.free+freeSpace rs := by simp [freeSpace]
    unfold roomyRun at hnone
    simp only [if_neg hmod] at hnone
    rw [hsum]
    split at hnone
    · rename_i h0
      rw [h0,Nat.zero_add]
      exact ih hrest (by omega) (by omega) hfree hnone
    · split at hnone
      · cases hnone
      · rename_i hlt
        rw [← Nat.add_assoc]
        exact ih hrest (by omega) (by omega) (by omega) hnone

theorem roomyRecord_pos {p : ℕ × ℕ} (ht : Tiles recLen (readRecord m) (Record.Ok cfg) o rs)
    (hp : roomyRecord need o rs=some p) : 0<p.2 := by
  induction rs generalizing o with
  | nil => cases hp
  | cons r rs ih =>
    obtain ⟨-,hok,hrest⟩ := ht
    unfold roomyRecord at hp
    split at hp
    · cases hp
      exact hok.pos
    · exact ih hrest hp

theorem roomyRun_pos {free : ℕ} {start : Option ℕ} {p : ℕ × ℕ}
    (ht : Tiles recLen (readRecord m) (Record.Ok cfg) o rs) (hs : start.getD o≤o)
    (hp : roomyRun cfg need o start free rs=some p) : 0<p.2 := by
  induction rs generalizing o start free with
  | nil => cases hp
  | cons r rs ih =>
    obtain ⟨-,hok,hrest⟩ := ht
    have hpos := hok.pos
    unfold roomyRun at hp
    dsimp only at hp
    have hs' : (if o%cfg.blocksize=0 then none else start).getD o≤o := by
      split
      · exact Nat.le_refl o
      · exact hs
    generalize (if o%cfg.blocksize=0 then none else start)=start' at hp hs'
    generalize (if o%cfg.blocksize=0 then 0 else free)=free' at hp
    split at hp
    · apply ih hrest _ hp
      cases start' with
      | none => exact Nat.le_refl _
      | some a => exact Nat.le_trans hs' (Nat.le_add_right _ _)
    · split at hp
      · cases hp
        omega
      · exact ih hrest (Nat.le_trans hs' (Nat.le_add_right _ _)) hp

theorem Leaf.free_of_full (hl : Leaf cfg m rs) (hneed : 0<need)
    (hfull : (roomFor cfg need rs).2=0) : freeSpace rs<need := by
  have htot := hl.total_eq
  have hrun : roomyRun cfg need 0 none 0 rs=none := by
    unfold roomFor at hfull
    cases hrec : roomyRecord need 0 rs with
    | some p =>
      have hpos := roomyRecord_pos hl.tiles hrec
      rw [hrec] at hfull
      have h0 : p.2=0 := hfull
      omega
    | none =>
      cases hrun : roomyRun cfg need 0 none 0 rs with
      | some p =>
        have hpos := roomyRun_pos hl.tiles (show (none : Option ℕ).getD 0≤0 from Nat.le_refl 0) hrun
        rw [hrec,hrun] at hfull
        have h0 : p.2=0 := hfull
        omega
      | none => rfl
  cases rs with
  | nil => simpa [freeSpace] using hneed
  | cons r rs =>
    obtain ⟨-,hok,hrest⟩ := hl.tiles
    have hpos := hok.pos
    rw [total_cons] at htot
    have hsum : freeSpace (r::rs)=r.free+freeSpace rs := by simp [freeSpace]
    unfold roomyRun at hrun
    simp only [Nat.zero_mod,if_true,Nat.zero_add] at hrun hrest
    rw [hsum]
    split at hrun
    · rename_i h0
      rw [h0]
      exact free_of_roomyRun hrest hpos (by omega) hneed hrun
    · split at hrun
      · cases hrun
      · exact free_of_roomyRun hrest hpos (by omega) (by omega) hrun

theorem total_eq_used_add_free (ht : Tiles recLen (readRecord m) (Record.Ok cfg) o rs) :
    total recLen rs=(rs.map Record.used).sum+freeSpace rs := by
  induction rs generalizing o with
  | nil => rfl
  | cons r rs ih =>
    obtain ⟨-,hok,hrest⟩ := ht
    have hle := hok.used_le
    have hrec := ih hrest
    unfold freeSpace at hrec ⊢
    rw [total_cons,List.map_cons,List.map_cons,List.sum_cons,List.sum_cons,hrec]
    unfold Record.free
    omega

theorem used_sum_le {n : ℕ} (hn : ∀ r∈rs,r.live=true → dirRecLen r.name.length=n) :
    (rs.map Record.used).sum=(rs.filter Record.live).length*n := by
  induction rs with
  | nil => simp
  | cons r rs ih =>
    obtain ⟨h1,h2⟩ := List.forall_mem_cons.mp hn
    rw [List.map_cons,List.sum_cons,ih h2]
    unfold Record.used
    cases hr : r.live with
    | false => simp [hr]
    | true =>
      rw [List.filter_cons_of_pos hr,List.length_cons,Nat.succ_mul,h1 hr,if_pos rfl,Nat.add_comm]

/-- One block that `ext2_direnter` turns into an index for the entry `d`: well formed, `.` and `..`
in front, names that need records of one length, and no space for another one. -/
structure Crowded (cfg : Config) (m : Bytes) (d : Dentry) : Prop where
  wellFormed : WellFormed cfg (leafDir cfg m)
  dots : ∃ dot dotdot rs,(leafDir cfg m).records=dot::dotdot::rs ∧ dot.recLen=12 ∧
    dot.name=[46] ∧ dotdot.name=[46,46]
  common : ∀ r∈(leafDir cfg m).records.drop 2,r.live=true → dirRecLen r.name.length=d.reclen
  valid : d.Valid cfg
  absent : d.name.bytes∉(leafDir cfg m).entries.map Prod.fst
  full : (roomFor cfg d.reclen (leafDir cfg m).records).2=0

def oldEntries (cfg : Config) (m : Bytes) : List (List UInt8 × ℕ) :=
  entriesOf ((leafDir cfg m).records.drop 2)

theorem used_le (r : Record) : r.used ≤ dirRecLen r.name.length := by
  unfold Record.used
  split
  · exact Nat.le_refl _
  · exact Nat.zero_le _

theorem Crowded.two_live {d : Dentry} (hc : Crowded cfg m d) :
    2 ≤ (((leafDir cfg m).records.drop 2).filter Record.live).length := by
  have hl := leaf_iff_layout.mpr hc.wellFormed.layout
  obtain ⟨dot,dotdot,rs,hrs,hlen,hdot,hdd⟩ := hc.dots
  have hfree := hl.free_of_full (by have := reclen_bounds d; omega) hc.full
  have htot := hl.total_eq
  have hbs := cfg.blocksize_bounds
  have hd := (reclen_bounds d).2
  have hsum := total_eq_used_add_free hl.tiles
  have hused := used_sum_le hc.common
  rw [hrs] at htot hsum hfree hused ⊢
  rw [List.map_cons,List.map_cons,List.sum_cons,List.sum_cons] at hsum
  simp only [List.drop_succ_cons,List.drop_zero] at hused ⊢
  have h1 := used_le dot
  have h2 := used_le dotdot
  rw [hdot] at h1
  rw [hdd] at h2
  have h1' : dot.used≤12 := h1
  have h2' : dotdot.used≤12 := h2
  by_contra hlt
  have hmul : (rs.filter Record.live).length*d.reclen≤1*266 := Nat.mul_le_mul (by omega) hd
  omega

theorem fillLast_live (n : ℕ) (qs : List Record) :
    ((fillLast n qs).filter Record.live).length=(qs.filter Record.live).length := by
  have h := congrArg List.length (packed_fillLast n qs)
  unfold packed at h
  rwa [List.length_map,List.length_map] at h

theorem fillLast_names {n len : ℕ} {qs : List Record}
    (h : ∀ r∈qs,r.live=true → dirRecLen r.name.length=len) :
    ∀ r∈fillLast n qs,r.live=true → dirRecLen r.name.length=len := by
  intro r hr hl
  have hm := mem_of_fillLast hr hl
  obtain ⟨q,hq,he⟩ := List.mem_map.mp hm
  obtain ⟨hq,hql⟩ := List.mem_filter.mp hq
  rw [← trim_name he]
  exact h q hq hql

theorem Crowded.makeIndexedDir {d : Dentry} (hc : Crowded cfg m d) (seed : HashBuf) (version : ℕ)
    (fresh1 fresh2 : Bytes) :
    let t := Htree.makeIndexedDir cfg seed version m d fresh1 fresh2
    Sound cfg (hashing seed version) d.reclen t ∧ t.version=version ∧
      (liveEntries cfg t).Perm ((d.name.bytes,d.ino)::oldEntries cfg m) := by
  have hl := leaf_iff_layout.mpr hc.wellFormed.layout
  have h2 := hc.two_live
  have hcommon := hc.common
  have hlim := limits cfg
  unfold oldEntries
  obtain ⟨dot,dotdot,rs,hrs,hlen,-,-⟩ := hc.dots
  rw [hrs] at hl h2 hcommon ⊢
  have hne : rs≠[] := by
    rintro rfl
    simp at h2
  have hleaf := moveOut_leaf hl hlen hne fresh1
  have hent := entriesOf_fillLast cfg.blocksize rs
  rw [← fillLast_live cfg.blocksize] at h2
  unfold Htree.makeIndexedDir
  generalize ht : ({
    version := version
    levels := 0
    root := [⟨0,1⟩]
    node := fun _ => []
    leaf := fun b => if b=1 then moveOut cfg m fresh1 else m
    blocks := 2 } : IndexedDir)=t
  have hleaves : t.leaves=[(0,1)] := by
    rw [← ht]
    rfl
  have hone : t.leaf 1=moveOut cfg m fresh1 := by
    rw [← ht]
    rfl
  have hshape : Shape cfg t := by
    rw [← ht]
    refine ⟨Nat.zero_le 1,List.cons_ne_nil _ _,nofun,?_,nofun,Nat.succ_pos 1,.refl _⟩
    change 1 ≤ rootLimit cfg
    omega
  have hslot : Slot t ⟨0,none,0⟩ 0 [] (0,1) [] := by
    rw [← ht]
    exact .flat rfl rfl rfl rfl
  have hranged : Ranged (Hashes cfg (hashing seed version) t.leaf) t.leaves := by
    rw [hleaves]
    exact ⟨fun v _ => Nat.zero_le v,nofun,trivial⟩
  have hroom : (t.entries ⟨0,none,0⟩).length <
      if (⟨0,none,0⟩ : Frames).node.isSome then nodeLimit cfg else rootLimit cfg := by
    rw [← ht]
    change 1 < rootLimit cfg
    omega
  rw [← hone] at hleaf
  obtain ⟨g1,g2,g3⟩ := splitLeaf_sound hshape hranged hslot nofun hroom hleaf
    (fillLast_names hcommon) h2 hc.valid ⟨Nat.zero_le _,nofun⟩ fresh2
  refine ⟨g1,g2.trans (by rw [← ht]),?_⟩
  have hold : liveEntries cfg t=entriesOf rs := by
    unfold liveEntries content
    rw [hleaves,List.flatMap_cons,List.flatMap_nil,List.append_nil,hleaf.blockEntries,hent]
  rwa [hold] at g3

end Ext2fsX.Htree
