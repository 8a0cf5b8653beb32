import Ext2fsX.Framework.Sweeps
import Ext2fsX.Htree.Leaves
import Ext2fsX.Htree.Listing

namespace Ext2fsX.Directory

open Framework Record

variable {cfg : Config} {m : Bytes} {name : List UInt8} {bad : List ℕ} {endsearch : ℕ}

def Searches (cfg : Config) (bad : List ℕ) (endsearch o : ℕ) : Prop :=
  o<endsearch ∧ ¬(o%cfg.blocksize=0 ∧ o/cfg.blocksize∈bad)

deriving instance Decidable for Searches

/-- The search loop of `ext2_lookupi` with the bytes of its block that it reads. A negative
`i_offset` is in no block of the directory. -/
def searchSweep (cfg : Config) (m : Bytes) (bad : List ℕ) (name : List UInt8) (endsearch : ℕ) :
    Sweep Search where
  next s :=
    if Searches cfg bad endsearch s.offset then
      match (s.enterBlock cfg).scan cfg m name with
      | .next t => some t
      | _ => none
    else none
  extent s :=
    if 2147483648 ≤ s.offset then cfg.blocksize+1
    else if Searches cfg bad endsearch s.offset then
      let e := (s.enterBlock cfg).entryoffsetinblock
      e+(readRecord m s.offset).touched cfg name e
    else 0

/-- In `dp` and `uio_resid`, with the bytes of `dirbuf` it reads; `stuck` is where `uiomove` fails.
-/
def fillSweep (m : Bytes) (edp : ℕ) (stuck : ℕ → Bool) : Sweep (ℕ × ℕ) where
  next s :=
    let r := readRecord m s.1
    let reclen := dirsiz r.name.length
    if 0 < s.2 ∧ s.1<edp ∧ 0 < r.recLen ∧ reclen ≤ s.2 ∧ stuck s.1=false then
      some (s.1+r.recLen,s.2-reclen)
    else none
  extent s := if 0 < s.2 ∧ s.1<edp then s.1+8+(readRecord m s.1).name.length else 0

/-- The loop of `ext3_dx_find_entry` over a leaf. -/
def leafSweep (cfg : Config) (m : Bytes) (name : List UInt8) : Sweep ℕ where
  next de :=
    let r := readRecord m de
    if de+dirRecLen 0 < cfg.blocksize ∧ r.hit name=false then some (de+r.recLen) else none
  extent de :=
    let r := readRecord m de
    if de+dirRecLen 0 < cfg.blocksize then
      if r.live && decide (r.name.length=name.length) then de+8+name.length else de+7
    else 0

/-- The loop of `htree_dirblock_to_tree`: every name is hashed. -/
def treeSweep (cfg : Config) (m : Bytes) : Sweep ℕ where
  next de :=
    if de+dirRecLen 0 < cfg.blocksize then some (de+(readRecord m de).recLen) else none
  extent de :=
    if de+dirRecLen 0 < cfg.blocksize then de+8+(readRecord m de).name.length else 0

theorem searchloop_next {s t : Search} (h : (searchSweep cfg m bad name endsearch).next s=some t)
    (fuel : ℕ) : searchloop cfg m bad name endsearch (fuel+1) s=
      if 2147483648 ≤ t.offset then .stop .fault
      else searchloop cfg m bad name endsearch fuel t := by
  unfold searchSweep at h
  dsimp only at h
  split at h
  · next hs =>
    rw [searchloop,if_pos hs.1,if_neg hs.2]
    split at h
    · next u hu =>
      cases h
      rw [hu]
    · cases h
  · cases h

theorem fill_next {edp dp resid dp' resid' : ℕ}
    (h : (fillSweep m edp (fun _ => false)).next (dp,resid)=some (dp',resid')) (past : UInt8)
    (fuel : ℕ) : (fill past m edp (fuel+1) dp resid).dp=(fill past m edp fuel dp' resid').dp := by
  unfold fillSweep at h
  dsimp only at h
  split at h
  · next hs =>
    obtain ⟨h1,h2,h3,h4,-⟩ := hs
    cases h
    rw [fill,if_pos ⟨h1,h2⟩]
    rw [if_pos h3]
    unfold dirent
    rw [if_pos h4]
  · cases h

theorem findInLeaf_next {de de' : ℕ} (h : (leafSweep cfg m name).next de=some de') (fuel : ℕ) :
    Htree.findInLeaf cfg m name (fuel+1) de=Htree.findInLeaf cfg m name fuel de' := by
  unfold leafSweep at h
  dsimp only at h
  split at h
  · next hs =>
    cases h
    rw [Htree.findInLeaf,if_pos hs.1]
    dsimp only
    rw [hs.2,if_neg Bool.false_ne_true]
  · cases h

theorem dirblockToTree_next {de de' : ℕ} (h : (treeSweep cfg m).next de=some de')
    (hs : Htree.Hashing) (hash minor fuel : ℕ) (s : Htree.Filling) :
    ∃ s',Htree.dirblockToTree cfg hs hash minor m (fuel+1) de s=
      Htree.dirblockToTree cfg hs hash minor m fuel de' s' := by
  unfold treeSweep at h
  dsimp only at h
  split at h
  · next hde =>
    cases h
    rw [Htree.dirblockToTree,if_pos hde]
    exact ⟨_,rfl⟩
  · cases h

section Linear

def stride (cfg : Config) (m : Bytes) (o : ℕ) : ℕ :=
  if (readRecord m o).mangled cfg (o%cfg.blocksize) then cfg.blocksize-o%cfg.blocksize
  else (readRecord m o).recLen

def Taken (cfg : Config) (m : Bytes) (name : List UInt8) (o : ℕ) : Prop :=
  (readRecord m o).mangled cfg (o%cfg.blocksize)=false ∧ (readRecord m o).hit name=true

/-- What is read of the record at `o` is in the block. -/
def Inside (cfg : Config) (m : Bytes) (name : List UInt8) (o : ℕ) : Prop :=
  o%cfg.blocksize+(readRecord m o).touched cfg name (o%cfg.blocksize) ≤ cfg.blocksize

/-- The search goes on to a place in the same block, to the start of a block or to the end of the
search. -/
structure Passable (cfg : Config) (m : Bytes) (bad : List ℕ) (name : List UInt8)
    (endsearch o : ℕ) : Prop where
  searches : Searches cfg bad endsearch o
  inside : Inside cfg m name o
  other : ¬Taken cfg m name o
  lands : (o+stride cfg m o)%cfg.blocksize=0 ∨ o%cfg.blocksize+stride cfg m o < cfg.blocksize ∨
    endsearch≤o+stride cfg m o

/-- From `start` on there are only passable records, up to the one searched for or the end, and
`i_offset` does not wrap. -/
def SearchClear (cfg : Config) (m : Bytes) (bad : List ℕ) (name : List UInt8)
    (endsearch start : ℕ) : Prop :=
  ∃ rs : List ℕ,Tiles id (stride cfg m) (fun o _ => Passable cfg m bad name endsearch o) start rs ∧
    start+total id rs<2147483648 ∧ (¬Searches cfg bad endsearch (start+total id rs) ∨
        Inside cfg m name (start+total id rs) ∧ Taken cfg m name (start+total id rs))

theorem Record.six_le_touched (r : Record) (e : ℕ) : 6 ≤ r.touched cfg name e := by
  unfold Record.touched
  split_ifs <;> omega

variable {s : Search}

theorem searchSweep_extent (hin : s.InBlock cfg) (hsmall : s.offset<2147483648)
    (hs : Searches cfg bad endsearch s.offset) (limit : ℕ) :
    (searchSweep cfg m bad name endsearch).extent s ≤ limit ↔ s.offset%cfg.blocksize+
        (readRecord m s.offset).touched cfg name (s.offset%cfg.blocksize) ≤ limit := by
  unfold searchSweep
  dsimp only
  rw [if_neg (Nat.not_le.mpr hsmall),if_pos hs,enterBlock_eq hin]

theorem search_small (h : (searchSweep cfg m bad name endsearch).Safe cfg.blocksize s) :
    s.offset<2147483648 := by
  by_contra hno
  have hext := h.extent_le
  unfold searchSweep at hext
  dsimp only at hext
  rw [if_pos (Nat.not_lt.mp hno)] at hext
  omega

theorem searchSweep_next (hro : cfg.rdonly=true) (hin : s.InBlock cfg)
    (hs : Searches cfg bad endsearch s.offset) (hinside : Inside cfg m name s.offset) :
    (Taken cfg m name s.offset → (searchSweep cfg m bad name endsearch).next s=none) ∧
    (¬Taken cfg m name s.offset → ∃ t,(searchSweep cfg m bad name endsearch).next s=some t ∧
      t.offset=s.offset+stride cfg m s.offset ∧
      t.entryoffsetinblock=s.offset%cfg.blocksize+stride cfg m s.offset) := by
  unfold Inside at hinside
  unfold searchSweep Search.scan Taken stride Record.hit
  dsimp only
  rw [if_pos hs,enterBlock_eq hin]
  dsimp only
  rw [if_neg (by omega),Nat.mod_mod]
  cases hm : (readRecord m s.offset).mangled cfg (s.offset%cfg.blocksize) with
  | true =>
    constructor
    · rintro ⟨h,-⟩
      cases h
    · intro _
      rw [hro]
      exact ⟨_,rfl,rfl,rfl⟩
  | false =>
    cases hh : (readRecord m s.offset).live && decide ((readRecord m s.offset).name=name) with
    | true =>
      constructor
      · intro _
        rfl
      · intro h
        exact absurd ⟨rfl,rfl⟩ h
    | false =>
      constructor
      · rintro ⟨-,h⟩
        cases h
      · intro _
        exact ⟨_,rfl,rfl,rfl⟩

theorem search_safe_of_end (hsmall : s.offset<2147483648)
    (h : ¬Searches cfg bad endsearch s.offset) :
    (searchSweep cfg m bad name endsearch).Safe cfg.blocksize s := by
  have hnext : (searchSweep cfg m bad name endsearch).next s=none := if_neg h
  have hext : (searchSweep cfg m bad name endsearch).extent s=0 :=
    (if_neg (Nat.not_le.mpr hsmall)).trans (if_neg h)
  rw [Sweep.safe_of_none hnext,hext]
  exact Nat.zero_le _

theorem inBlock_of_lands {o n : ℕ} (ho : s.offset=o+n) (he : s.entryoffsetinblock=o%cfg.blocksize+n)
    (h : (o+n)%cfg.blocksize=0 ∨ o%cfg.blocksize+n < cfg.blocksize) : s.InBlock cfg := by
  intro hne
  rw [ho] at hne ⊢
  rw [he,← Nat.mod_add_mod,Nat.mod_eq_of_lt (h.resolve_left hne)]

theorem lands_of_safe {o n : ℕ} (ho : s.offset=o+n) (he : s.entryoffsetinblock=o%cfg.blocksize+n)
    (h : (searchSweep cfg m bad name endsearch).Safe cfg.blocksize s) :
    (o+n)%cfg.blocksize=0 ∨ o%cfg.blocksize+n < cfg.blocksize ∨ endsearch≤o+n := by
  by_contra hno
  push Not at hno
  obtain ⟨h0,hge,hlt⟩ := hno
  have hs : Searches cfg bad endsearch s.offset := by
    refine ⟨by omega,fun hb => ?_⟩
    rw [ho] at hb
    exact h0 hb.1
  have hext := h.extent_le
  have hsix : 6≤(readRecord m s.offset).touched cfg name s.entryoffsetinblock :=
    Record.six_le_touched _ _
  unfold searchSweep Search.enterBlock at hext
  dsimp only at hext
  rw [if_neg (Nat.not_le.mpr (search_small h)),if_pos hs,ho,if_neg h0,← ho] at hext
  omega

theorem search_safe_iff (hro : cfg.rdonly=true) (hin : s.InBlock cfg) :
    (searchSweep cfg m bad name endsearch).Safe cfg.blocksize s ↔
      SearchClear cfg m bad name endsearch s.offset := by
  constructor
  · intro h
    obtain ⟨n,hn⟩ := h.1
    induction n generalizing s with
    | zero => cases hn
    | succ n ih =>
      have hsmall := search_small h
      by_cases hs : Searches cfg bad endsearch s.offset
      · have hinside : Inside cfg m name s.offset :=
          (searchSweep_extent hin hsmall hs _).mp h.extent_le
        obtain ⟨htaken,hother⟩ := searchSweep_next hro hin hs hinside
        by_cases ht : Taken cfg m name s.offset
        · exact ⟨[],trivial,hsmall,.inr ⟨hinside,ht⟩⟩
        obtain ⟨t,hnext,ho,he⟩ := hother ht
        have hsafe := ((Sweep.safe_of_some hnext).mp h).2
        have hlands := lands_of_safe ho he hsafe
        rw [climb_succ,hnext,Option.bind_some] at hn
        have hpass : Passable cfg m bad name endsearch s.offset := ⟨hs,hinside,ht,hlands⟩
        rcases or_assoc.mpr hlands with hblock | hend
        · obtain ⟨rs,htiles,hlast⟩ := ih (inBlock_of_lands ho he hblock) hsafe hn
          rw [ho] at htiles hlast
          refine ⟨stride cfg m s.offset::rs,⟨rfl,hpass,htiles⟩,?_⟩
          rw [total_cons,← Nat.add_assoc]
          exact hlast
        · refine ⟨[stride cfg m s.offset],⟨rfl,hpass,trivial⟩,ho ▸ search_small hsafe,.inl ?_⟩
          exact fun h' => absurd h'.1 (Nat.not_lt.mpr hend)
      · exact ⟨[],trivial,hsmall,.inl hs⟩
  · rintro ⟨rs,htiles,hlast⟩
    have hsmall := Nat.lt_of_le_of_lt (Nat.le_add_right _ _) hlast.1
    induction rs generalizing s with
    | nil =>
      by_cases hs : Searches cfg bad endsearch s.offset
      · obtain ⟨hinside,ht⟩ := hlast.2.resolve_left (not_not.mpr hs)
        have hnext := (searchSweep_next hro hin hs hinside).1 ht
        rw [Sweep.safe_of_none hnext,searchSweep_extent hin hsmall hs]
        exact hinside
      · exact search_safe_of_end hsmall hs
    | cons n rs ih =>
      obtain ⟨rfl,hpass,htiles⟩ := htiles
      obtain ⟨t,hnext,ho,he⟩ := (searchSweep_next hro hin hpass.searches hpass.inside).2 hpass.other
      rw [Sweep.safe_of_some hnext,searchSweep_extent hin hsmall hpass.searches]
      refine ⟨hpass.inside,?_⟩
      rw [total_cons,← Nat.add_assoc] at hlast
      have hnew := Nat.lt_of_le_of_lt (Nat.le_add_right _ _) hlast.1
      rcases or_assoc.mpr hpass.lands with hblock | hend
      · apply ih (inBlock_of_lands ho he hblock)
        · rw [ho]
          exact htiles
        · rw [ho]
          exact hlast
        · rw [ho]
          exact hnew
      · apply search_safe_of_end (ho ▸ hnew)
        rw [ho]
        exact fun h => absurd h.1 (Nat.not_lt.mpr hend)

end Linear

section Conversion

variable {edp limit dp resid : ℕ} {stuck : ℕ → Bool}

def direntSpace (rs : List Record) : ℕ := total (fun r => dirsiz r.name.length) rs

structure Movable (edp limit : ℕ) (stuck : ℕ → Bool) (o : ℕ) (r : Record) : Prop where
  before : o<edp
  pos : 0 < r.recLen
  inside : o+8+r.name.length ≤ limit
  moved : stuck o=false

/-- The records moved out are inside `dirbuf`, and so is the one that ends the loop, unless the
caller's buffer is full or the end is reached. -/
def FillClear (m : Bytes) (edp limit : ℕ) (stuck : ℕ → Bool) (dp resid : ℕ) : Prop :=
  ∃ rs,Tiles recLen (readRecord m) (Movable edp limit stuck) dp rs ∧
    direntSpace rs ≤ resid ∧
    let p := dp+total recLen rs
    let r := readRecord m p
    let left := resid-direntSpace rs
    left=0 ∨ edp≤p ∨ p+8+r.name.length ≤ limit ∧
      (r.recLen=0 ∨ left<dirsiz r.name.length ∨ stuck p=true)

theorem dirsiz_pos (n : ℕ) : 0<dirsiz n := by
  unfold dirsiz
  omega

theorem fillSweep_some (hpos : 0 < resid) (hm : Movable edp limit stuck dp (readRecord m dp))
    (hfit : dirsiz (readRecord m dp).name.length ≤ resid) :
    (fillSweep m edp stuck).next (dp,resid)=
      some (dp+(readRecord m dp).recLen,resid-dirsiz (readRecord m dp).name.length) :=
  if_pos ⟨hpos,hm.before,hm.pos,hfit,hm.moved⟩

theorem fill_safe_of_end (h : resid=0 ∨ edp≤dp ∨ dp+8+(readRecord m dp).name.length ≤ limit ∧
      ((readRecord m dp).recLen=0 ∨ resid<dirsiz (readRecord m dp).name.length ∨
        stuck dp=true)) : (fillSweep m edp stuck).Safe limit (dp,resid) := by
  have hnext : (fillSweep m edp stuck).next (dp,resid)=none := by
    apply if_neg
    rintro ⟨h1,h2,h3,h4,h5⟩
    dsimp only at h1 h2 h3 h4 h5
    rcases h with h | h | ⟨-,h | h | h⟩
    · omega
    · omega
    · omega
    · omega
    · rw [h] at h5
      cases h5
  rw [Sweep.safe_of_none hnext]
  unfold fillSweep
  dsimp only
  split
  · omega
  · exact Nat.zero_le _

theorem fill_safe_iff : (fillSweep m edp stuck).Safe limit (dp,resid) ↔
    FillClear m edp limit stuck dp resid := by
  constructor
  · intro h
    obtain ⟨n,hn⟩ := h.1
    induction n generalizing dp resid with
    | zero => cases hn
    | succ n ih =>
      by_cases hgo : 0 < resid ∧ dp<edp
      · have hinside : dp+8+(readRecord m dp).name.length ≤ limit := by
          have hext := h.extent_le
          unfold fillSweep at hext
          dsimp only at hext
          rw [if_pos hgo] at hext
          exact hext
        by_cases hm : 0<(readRecord m dp).recLen ∧ dirsiz (readRecord m dp).name.length ≤ resid ∧
            stuck dp=false
        · obtain ⟨h1,h2,h3⟩ := hm
          have hmov : Movable edp limit stuck dp (readRecord m dp) := ⟨hgo.2,h1,hinside,h3⟩
          have hnext := fillSweep_some hgo.1 hmov h2
          rw [climb_succ,hnext,Option.bind_some] at hn
          obtain ⟨rs,htiles,hspace,hlast⟩ := ih ((Sweep.safe_of_some hnext).mp h).2 hn
          have hcons : direntSpace (readRecord m dp::rs)=
              dirsiz (readRecord m dp).name.length+direntSpace rs := total_cons _ _
          refine ⟨readRecord m dp::rs,⟨rfl,hmov,htiles⟩,by omega,?_⟩
          rw [total_cons,← Nat.add_assoc,hcons,Nat.sub_add_eq]
          exact hlast
        · refine ⟨[],trivial,Nat.zero_le _,.inr (.inr ⟨hinside,?_⟩)⟩
          by_contra hno
          simp only [not_or] at hno
          obtain ⟨h1,h2,h3⟩ := hno
          exact hm ⟨Nat.pos_of_ne_zero h1,Nat.not_lt.mp h2,Bool.eq_false_iff.mpr h3⟩
      · refine ⟨[],trivial,Nat.zero_le _,?_⟩
        by_cases h0 : resid=0
        · exact .inl (by rw [h0]; rfl)
        · exact .inr (.inl (by rw [total_nil]; omega))
  · rintro ⟨rs,htiles,hspace,hlast⟩
    induction rs generalizing dp resid with
    | nil => exact fill_safe_of_end hlast
    | cons r rs ih =>
      obtain ⟨rfl,hm,htiles⟩ := htiles
      have hcons : direntSpace (readRecord m dp::rs)=
          dirsiz (readRecord m dp).name.length+direntSpace rs := total_cons _ _
      have hpos := dirsiz_pos (readRecord m dp).name.length
      rw [hcons] at hspace hlast
      rw [total_cons,← Nat.add_assoc,Nat.sub_add_eq] at hlast
      rw [Sweep.safe_of_some (fillSweep_some (by omega) hm (by omega))]
      refine ⟨?_,ih htiles (by omega) hlast⟩
      unfold fillSweep
      dsimp only
      rw [if_pos ⟨by omega,hm.before⟩]
      exact hm.inside

end Conversion

section Leaves

structure Passed (cfg : Config) (name : List UInt8) (o : ℕ) (r : Record) : Prop where
  before : o+dirRecLen 0 < cfg.blocksize
  other : r.hit name=false
  pos : 0 < r.recLen
  inside : r.live=true → r.name.length=name.length → o+8+name.length ≤ cfg.blocksize

def LeafClear (cfg : Config) (m : Bytes) (name : List UInt8) (de : ℕ) : Prop :=
  ∃ rs,Tiles recLen (readRecord m) (Passed cfg name) de rs ∧
    let p := de+total recLen rs
    cfg.blocksize ≤ p+dirRecLen 0 ∨
      (readRecord m p).hit name=true ∧ p+8+name.length ≤ cfg.blocksize

/-- A record at `o` of a leaf that `htree_dirblock_to_tree` takes. -/
structure Hashed (cfg : Config) (o : ℕ) (r : Record) : Prop where
  before : o+dirRecLen 0 < cfg.blocksize
  pos : 0 < r.recLen
  inside : o+8+r.name.length ≤ cfg.blocksize

def TreeClear (cfg : Config) (m : Bytes) (de : ℕ) : Prop :=
  ∃ rs,Tiles recLen (readRecord m) (Hashed cfg) de rs ∧
    cfg.blocksize ≤ de+total recLen rs+dirRecLen 0

theorem leafSweep_extent {de : ℕ} (h : de+dirRecLen 0 < cfg.blocksize) :
    (leafSweep cfg m name).extent de ≤ cfg.blocksize ↔
      ((readRecord m de).live=true → (readRecord m de).name.length=name.length →
        de+8+name.length ≤ cfg.blocksize) := by
  have h8 : dirRecLen 0=8 := rfl
  unfold leafSweep
  dsimp only
  rw [if_pos h]
  split
  · next hc =>
    obtain ⟨h1,h2⟩ := Bool.and_eq_true_iff.mp hc
    exact ⟨fun h _ _ => h,fun h => h h1 (of_decide_eq_true h2)⟩
  next hc =>
  constructor
  · intro _ h1 h2
    exact absurd (Bool.and_eq_true_iff.mpr ⟨h1,decide_eq_true h2⟩) hc
  · intro _
    omega

theorem leaf_safe_iff (de : ℕ) :
    (leafSweep cfg m name).Safe cfg.blocksize de ↔ LeafClear cfg m name de := by
  rw [Sweep.safe_iff_tiles recLen (readRecord m)
    (fun o => o+dirRecLen 0 < cfg.blocksize ∧ (readRecord m o).hit name=false)
    (fun _ h => if_pos h) (fun _ h => if_neg h)]
  apply exists_congr
  intro rs
  apply and_congr
  · constructor
    · intro h
      exact h.imp (fun p ⟨⟨h1,h2⟩,h3,h4⟩ => ⟨h1,h2,h3,(leafSweep_extent h1).mp h4⟩)
    · intro h
      exact h.imp (fun p h => ⟨⟨h.before,h.other⟩,h.pos,(leafSweep_extent h.before).mpr h.inside⟩)
  generalize de+total recLen rs=p
  by_cases hp : p+dirRecLen 0 < cfg.blocksize
  · rw [leafSweep_extent hp]
    constructor
    · rintro ⟨hstop,hext⟩
      have hhit : (readRecord m p).hit name=true := Bool.not_eq_false _ ▸ (not_and.mp hstop hp)
      obtain ⟨h1,h2⟩ := Bool.and_eq_true_iff.mp hhit
      exact .inr ⟨hhit,hext h1 (congrArg List.length (of_decide_eq_true h2))⟩
    · rintro (h | ⟨h1,h2⟩)
      · omega
      · refine ⟨fun h => ?_,fun _ _ => h2⟩
        rw [h1] at h
        cases h.2
  · have hext : (leafSweep cfg m name).extent p=0 := if_neg hp
    rw [hext]
    exact ⟨fun _ => .inl (Nat.not_lt.mp hp),fun _ => ⟨fun h => hp h.1,Nat.zero_le _⟩⟩

theorem tree_safe_iff (de : ℕ) : (treeSweep cfg m).Safe cfg.blocksize de ↔ TreeClear cfg m de := by
  have hext {p : ℕ} (hp : p+dirRecLen 0 < cfg.blocksize) :
      (treeSweep cfg m).extent p=p+8+(readRecord m p).name.length := if_pos hp
  rw [Sweep.safe_iff_tiles recLen (readRecord m) (fun o => o+dirRecLen 0 < cfg.blocksize)
    (fun _ h => if_pos h) (fun _ h => if_neg h)]
  apply exists_congr
  intro rs
  apply and_congr
  · constructor
    · intro h
      exact h.imp (fun p ⟨h1,h2,h3⟩ => ⟨h1,h2,hext h1 ▸ h3⟩)
    · intro h
      exact h.imp (fun p h => ⟨h.before,h.pos,(hext h.before).symm ▸ h.inside⟩)
  · generalize de+total recLen rs=p
    constructor
    · intro h
      exact Nat.not_lt.mp h.1
    · intro h
      have hend : (treeSweep cfg m).extent p=0 := if_neg (Nat.not_lt.mpr h)
      rw [hend]
      exact ⟨Nat.not_lt.mpr h,Nat.zero_le _⟩

end Leaves

/-- Each of the four loops ends and stays in its bytes exactly when its own condition is met; the
last two do not depend on `dirchk`. -/
theorem reads_inside_iff (cfg : Config) (hro : cfg.rdonly=true) (m : Bytes) (name : List UInt8) :
    (∀ bad endsearch s,Search.InBlock cfg s →
      ((searchSweep cfg m bad name endsearch).Safe cfg.blocksize s ↔
        SearchClear cfg m bad name endsearch s.offset)) ∧
    (∀ edp limit stuck dp resid,(fillSweep m edp stuck).Safe limit (dp,resid) ↔
      FillClear m edp limit stuck dp resid) ∧
    ((leafSweep cfg m name).Safe cfg.blocksize 0 ↔ LeafClear cfg m name 0) ∧
    ((treeSweep cfg m).Safe cfg.blocksize 0 ↔ TreeClear cfg m 0) :=
  ⟨fun _ _ _ hin => search_safe_iff hro hin,fun _ _ _ _ _ => fill_safe_iff,leaf_safe_iff 0,
    tree_safe_iff 0⟩

def checkedConfig : Config := { smallConfig with dirchk := true, rdonly := true }

theorem reads_inside_small :
    (treeSweep checkedConfig smallDir.data).Safe checkedConfig.blocksize 0 := by
  apply (reads_inside_iff checkedConfig rfl smallDir.data nameX.bytes).2.2.2.mpr
  refine ⟨smallRecords,?_,by decide⟩
  have hl : Layout smallConfig smallDir smallRecords :=
    ⟨by decide +kernel,rfl,by decide +kernel⟩
  have hbefore : ∀ x∈spots recLen 0 smallRecords,
      x.1+8<1024 ∧ x.1+8+x.2.name.length≤1024 := by decide
  rw [tiles_iff]
  intro x hx
  obtain ⟨hr,hok⟩ := (tiles_iff 0 smallRecords).mp hl.tiles x hx
  exact ⟨hr,(hbefore x hx).1,hok.pos,(hbefore x hx).2⟩

/-- A block with one record that passes all checks and ends four bytes before the block does. -/
def danglingBlock : Bytes := layRecords [⟨5,1020,1,nameA.bytes⟩]

/-- The search and `ext2_readdir` read behind that block, also under `dirchk`; on zeros the loops
over a leaf do not end. -/
theorem untrusted_blocks :
    (∃ t,climb (searchSweep checkedConfig danglingBlock [] nameX.bytes 1024).next 1
        ⟨0,0,0,0,.found,none,0,0,0⟩=some t ∧ checkedConfig.blocksize<
      (searchSweep checkedConfig danglingBlock [] nameX.bytes 1024).extent t) ∧
    (∃ t,climb (fillSweep danglingBlock 1024 (fun _ => false)).next 1 (0,1024)=some t ∧
      1024<(fillSweep danglingBlock 1024 (fun _ => false)).extent t) ∧
    (∀ n,climb (leafSweep checkedConfig (fun _ => 0) nameX.bytes).next n 0=some 0) ∧
    ∀ n,climb (treeSweep checkedConfig (fun _ => 0)).next n 0=some 0 := by
  refine ⟨⟨_,rfl,by decide +kernel⟩,⟨_,rfl,by decide +kernel⟩,fun n => ?_,fun n => ?_⟩
  · have hloop : climb (leafSweep checkedConfig (fun _ => 0) nameX.bytes).next 1 0=some 0 := by
      decide +kernel
    simpa using climb_loop hloop n
  · have hloop : climb (treeSweep checkedConfig (fun _ => 0)).next 1 0=some 0 := by
      decide +kernel
    simpa using climb_loop hloop n

end Ext2fsX.Directory
