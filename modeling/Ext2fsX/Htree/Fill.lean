import Ext2fsX.Htree.Listing

namespace Ext2fsX.Htree

open Framework Directory Record

variable (cfg : Config)

def blockRecords (m : Bytes) : List Record := (leafDir cfg m).records

/-- The records of the leaves `ys`. -/
def recordsOf (t : IndexedDir) (ys : List (ℕ × ℕ)) : List Record :=
  ys.flatMap (fun y => blockRecords cfg (t.leaf y.2))

def Holds (h : Hashing) (t : IndexedDir) (b v : ℕ) : Prop :=
  ∃ r∈blockRecords cfg (t.leaf b),h.hash r.name=v

/-- Every record of a leaf, also a deleted one, has a hash in the range of the leaf. A leaf is
packed again whenever its range gets smaller. -/
structure Indexed (h : Hashing) (t : IndexedDir) : Prop where
  shape : Shape cfg t
  known : (HashVersion.known t.version).isSome
  leaf : ∀ y∈t.leaves,∃ rs,Leaf cfg (t.leaf y.2) rs
  ranged : Ranged (Holds cfg h t) t.leaves

def fnameOf (h : Hashing) (r : Record) : Fname :=
  ⟨h.hash r.name,h.minorHash r.name,r.inode,r.fileType,r.name⟩

def nextKey : List (ℕ × ℕ) → ℕ
  | [] => 4294967295
  | y::_ => y.1

variable (ys : List (ℕ × ℕ))

def continued : List (ℕ × ℕ) := ys.takeWhile (fun y => decide (y.1%2=1))

def following : List (ℕ × ℕ) := ys.dropWhile (fun y => decide (y.1%2=1))

theorem continued_of_even {y : ℕ × ℕ} (hy : y.1%2=0) (ys : List (ℕ × ℕ)) :
    continued (y::ys)=[] ∧ following (y::ys)=y::ys := by
  simp [continued,following,hy]

theorem continued_of_odd {y : ℕ × ℕ} (hy : y.1%2=1) (ys : List (ℕ × ℕ)) :
    continued (y::ys)=y::continued ys ∧ following (y::ys)=following ys := by
  simp [continued,following,hy]

theorem continued_append : continued ys++following ys=ys := List.takeWhile_append_dropWhile

variable {cfg : Config} {h : Hashing} {t : IndexedDir}

section Blocks

variable {m : Bytes} {rs : List Record}

theorem Leaf.blockRecords (hl : Leaf cfg m rs) : blockRecords cfg m=rs :=
  (leaf_iff_layout.mp hl).records

theorem Leaf.ne_nil (hl : Leaf cfg m rs) : rs≠[] := by
  rintro rfl
  have htotal := hl.total_eq
  have hbs := cfg.blocksize_bounds
  rw [total_nil] at htotal
  omega

theorem dirblockToTree_tiles {k fuel de : ℕ} {s : Filling}
    (ht : Tiles recLen (readRecord m) (Record.Ok cfg) de rs)
    (hsize : de+total recLen rs=cfg.blocksize) (hf : rs.length<fuel)
    (hk : ∀ r∈rs,k≤h.hash r.name) :
    dirblockToTree cfg h k 0 m fuel de s=
      .ok ⟨enterAll Fname.key (rs.map (fnameOf h)) s.root,s.count+rs.length⟩ := by
  obtain ⟨fuel,rfl⟩ : ∃ f,fuel=f+1 := ⟨fuel-1,by omega⟩
  induction rs generalizing de fuel s with
  | nil =>
    rw [total_nil] at hsize
    rw [dirblockToTree,if_neg (by omega)]
    rfl
  | cons r rs ih =>
    obtain ⟨hr,hok,ht⟩ := ht
    obtain ⟨hkr,hk⟩ := List.forall_mem_cons.mp hk
    have hmin := hok.min
    rw [dirRecLen_one] at hmin
    rw [total_cons] at hsize
    rw [List.length_cons] at hf
    obtain ⟨fuel,rfl⟩ : ∃ f,fuel=f+1 := ⟨fuel-1,by omega⟩
    have h8 : dirRecLen 0=8 := rfl
    rw [dirblockToTree,if_pos (by omega)]
    dsimp only
    rw [hr,if_neg (by omega),ih ht (by omega) hk fuel (by omega)]
    rw [List.map_cons,enterAll_cons,List.length_cons,Nat.add_assoc,Nat.add_comm 1]
    rfl

end Blocks

section Index

variable {pre post : List (ℕ × ℕ)} {x : ℕ × ℕ} {k : ℕ}

theorem recordsOf_cons (y : ℕ × ℕ) (ys : List (ℕ × ℕ)) :
    recordsOf cfg t (y::ys)=blockRecords cfg (t.leaf y.2)++recordsOf cfg t ys := List.flatMap_cons

theorem recordsOf_append (xs ys : List (ℕ × ℕ)) :
    recordsOf cfg t (xs++ys)=recordsOf cfg t xs++recordsOf cfg t ys := List.flatMap_append

section

variable (hi : Indexed cfg h t)

include hi

theorem Indexed.records_ne_nil {y : ℕ × ℕ} (hy : y∈t.leaves) :
    blockRecords cfg (t.leaf y.2)≠[] := by
  obtain ⟨rs,hl⟩ := hi.leaf y hy
  rw [hl.blockRecords]
  exact hl.ne_nil

section

variable (hl : t.leaves=pre++x::post)

include hl

theorem Indexed.key_le (hk : x.1=k)
    (heven : k%2=0) {r : Record} (hr : r∈recordsOf cfg t (x::post)) : k≤h.hash r.name := by
  obtain ⟨y,hy,hry⟩ := List.mem_flatMap.mp hr
  have hran := hi.ranged
  rw [hl] at hran
  have hle : x.1≤y.1 := by
    rcases List.mem_cons.mp hy with rfl | hy
    · exact Nat.le_refl _
    · exact (List.pairwise_cons.mp hran.of_append.keys_le).1 y hy
  have hge := hran.ge (List.mem_append_right pre hy) ⟨r,hry,rfl⟩
  omega

theorem Indexed.lt_key {r : Record} (hr : r∈recordsOf cfg t pre) : h.hash r.name<x.1 := by
  obtain ⟨y,hy,hry⟩ := List.mem_flatMap.mp hr
  obtain ⟨p1,p2,rfl⟩ := List.append_of_mem hy
  have hran := hi.ranged
  rw [hl,List.append_assoc,List.cons_append] at hran
  exact hran.of_append.lt ⟨r,hry,rfl⟩ (List.mem_append_right p2 List.mem_cons_self)

theorem Indexed.probe_key (hk : x.1=k)
    (heven : k%2=0) : ∃ f,probe t k=some f ∧ Slot t f f.root pre x post := by
  obtain ⟨f,pre',x',post',hp,hslot,hprobed⟩ := hi.shape.probe hi.ranged.keys_le hi.known k
  have heq := hl.symm.trans hslot.leaves_eq
  obtain ⟨r,hr⟩ := List.exists_mem_of_ne_nil _ (hi.records_ne_nil (y := x) (by rw [hl]; simp))
  have hge : k≤h.hash r.name := hi.key_le hl hk heven (by
    exact List.mem_append_left _ hr)
  rcases List.append_eq_append_iff.mp heq with ⟨as,h1,h2⟩ | ⟨bs,h1,h2⟩
  · cases as with
    | nil =>
      rw [List.append_nil] at h1
      cases h2
      cases h1
      exact ⟨f,hp,hslot⟩
    | cons a as =>
      -- the leaf found would be behind `x`, and so above the hashes of `x`
      cases h2
      have hran := hi.ranged
      rw [hl] at hran
      have hlt := hran.of_append.lt ⟨r,hr,rfl⟩ (List.mem_append_right as List.mem_cons_self)
      have hhere := hprobed.here
      omega
  · cases bs with
    | nil =>
      rw [List.append_nil] at h1
      cases h2
      cases h1
      exact ⟨f,hp,hslot⟩
    | cons b bs =>
      cases h2
      have hafter := hprobed.after x (List.mem_append_right bs List.mem_cons_self)
      omega

end

theorem Indexed.fillLoop {f : Frames} {s : Filling} {fuel : ℕ}
    (hs : Slot t f f.root pre x post) (hf : post.length<fuel)
    (hk : ∀ r∈recordsOf cfg t (x::post),k≤h.hash r.name) :
    fillLoop cfg h t k 0 fuel f s=
      .ok (⟨enterAll Fname.key ((recordsOf cfg t (x::continued post)).map (fnameOf h)) s.root,
        s.count+(recordsOf cfg t (x::continued post)).length⟩,nextKey (following post)) := by
  induction fuel generalizing f s pre x post with
  | zero => cases hf
  | succ fuel ih =>
    have hx : x∈t.leaves := by
      rw [hs.leaves_eq]
      simp
    obtain ⟨rs,hl⟩ := hi.leaf x hx
    have hblock : dirblockToTree cfg h k 0 (t.leaf x.2) (cfg.blocksize+1) 0 s=
        .ok ⟨enterAll Fname.key (rs.map (fnameOf h)) s.root,s.count+rs.length⟩ := by
      apply dirblockToTree_tiles hl.tiles
      · rw [hl.total_eq,Nat.zero_add]
      · exact Nat.lt_succ_of_le hl.length_le
      · intro r hr
        apply hk
        rw [recordsOf_cons,hl.blockRecords]
        exact List.mem_append_left _ hr
    have hlen := List.length_pos_of_ne_nil hl.ne_nil
    unfold Htree.fillLoop
    rw [hs.leafBlock,hblock]
    rcases hs.advance hi.shape.nodes with ⟨rfl,ha⟩ | ⟨y,ys,f',rfl,ha,hs'⟩
    · rw [ha]
      simp [recordsOf,continued,following,nextKey,hl.blockRecords]
    rw [ha]
    dsimp only
    by_cases hy : y.1%2=0
    · obtain ⟨hc,hn⟩ := continued_of_even hy ys
      rw [if_pos ⟨by omega,hy⟩,hc,hn]
      simp [recordsOf,nextKey,hl.blockRecords]
    obtain ⟨hc,hn⟩ := continued_of_odd (by omega : y.1%2=1) ys
    rw [if_neg (fun h => hy h.2),hc,hn,recordsOf_cons x,hl.blockRecords]
    rw [List.length_cons] at hf
    rw [ih hs' (by omega)]
    · dsimp only
      rw [List.map_append,enterAll_append,List.length_append,Nat.add_assoc]
    · intro r hr
      apply hk
      exact List.mem_append_right _ hr

end

end Index

section Trees

variable (cfg) (seed : HashBuf) (d : DxDir)

def DxDir.dots : List Fname :=
  [⟨0,0,d.dot.inode,d.dot.fileType,d.dot.name⟩,⟨0,0,d.dotdot.inode,d.dotdot.fileType,d.dotdot.name⟩]

def fnamesFrom (ys : List (ℕ × ℕ)) : List Fname :=
  (if nextKey ys=0 then d.dots else [])++
    (recordsOf cfg d.tree ys).map (fnameOf (hashing seed d.tree.version))

def treeFrom (ys : List (ℕ × ℕ)) : List (Bucket Fname) :=
  enterAll Fname.key (fnamesFrom cfg seed d ys) []

def Resumable (ys : List (ℕ × ℕ)) : Prop :=
  (∃ pre,d.tree.leaves=pre++ys) ∧ ∀ y∈ys.head?,y.1%2=0

variable {cfg seed d} {pre post : List (ℕ × ℕ)} {x : ℕ × ℕ}

theorem treeFrom_nil : treeFrom cfg seed d []=[] := rfl

theorem enterAll_ne_nil {as : List Fname} (h : as≠[]) : enterAll Fname.key as []≠[] := by
  intro he
  have hp : ((enterAll Fname.key as []).flatMap Bucket.chain).Perm (as++[]) := chains_enterAll as []
  rw [he,List.flatMap_nil,List.append_nil] at hp
  exact h hp.nil_eq.symm

theorem key_lt_of_hash {a b : Fname} (h : a.hash<b.hash) : a.key<b.key :=
  Prod.Lex.toLex_lt_toLex.mpr (.inl h)

section

variable (hi : Indexed cfg (hashing seed d.tree.version) d.tree)

include hi

section

variable (hl : d.tree.leaves=pre++x::post)

include hl

theorem Indexed.following_key {y : ℕ × ℕ} {ys : List (ℕ × ℕ)} (hf : following post=y::ys) :
    d.tree.leaves=(pre++x::continued post)++y::ys ∧ y.1%2=0 ∧ 0<y.1 := by
  have hsplit : d.tree.leaves=(pre++x::continued post)++y::ys := by
    rw [hl,← hf,List.append_assoc,List.cons_append,continued_append]
  refine ⟨hsplit,?_,?_⟩
  · have hhead := List.head?_dropWhile_not (fun z : ℕ × ℕ => decide (z.1%2=1)) post
    rw [show post.dropWhile _=y::ys from hf] at hhead
    simpa using hhead
  have hne := hi.records_ne_nil (y := x) (by rw [hl]; simp)
  obtain ⟨r,hr⟩ := List.exists_mem_of_ne_nil _ hne
  have hlt := hi.lt_key hsplit (r := r) (by
    rw [recordsOf_append,recordsOf_cons]
    exact List.mem_append_right _ (List.mem_append_left _ hr))
  exact Nat.lt_of_le_of_lt (Nat.zero_le _) hlt

theorem Indexed.resumable_following : Resumable d (following post) := by
  cases hf : following post with
  | nil => exact ⟨⟨d.tree.leaves,(List.append_nil _).symm⟩,nofun⟩
  | cons y ys =>
    obtain ⟨hsplit,heven,-⟩ := hi.following_key hl hf
    refine ⟨⟨_,hsplit⟩,?_⟩
    intro z hz
    obtain rfl := Option.some.inj hz
    exact heven

theorem Indexed.treeFrom_split : treeFrom cfg seed d (x::post)=
      treeFrom cfg seed d (x::continued post)++treeFrom cfg seed d (following post) := by
  have hrecords : fnamesFrom cfg seed d (x::post)=fnamesFrom cfg seed d (x::continued post)++
      (recordsOf cfg d.tree (following post)).map (fnameOf (hashing seed d.tree.version)) := by
    unfold fnamesFrom
    rw [List.append_assoc,← List.map_append,← recordsOf_append,List.cons_append,continued_append]
    rfl
  cases hf : following post with
  | nil =>
    rw [treeFrom_nil,List.append_nil]
    unfold treeFrom
    rw [hrecords,hf]
    exact congrArg (fun as => enterAll Fname.key as []) (List.append_nil _)
  | cons y ys =>
    obtain ⟨hsplit,hyeven,hpos⟩ := hi.following_key hl hf
    have hno : fnamesFrom cfg seed d (y::ys)=
        (recordsOf cfg d.tree (y::ys)).map (fnameOf (hashing seed d.tree.version)) := by
      unfold fnamesFrom
      rw [if_neg (show ¬nextKey (y::ys)=0 from Nat.ne_of_gt hpos),List.nil_append]
    unfold treeFrom
    rw [hrecords,hf,enterAll_append,hno]
    rw [← enterAll_behind,List.append_nil]
    intro b hb a ha
    obtain ⟨r,hr,rfl⟩ := List.mem_map.mp ha
    have hge : y.1≤(hashing seed d.tree.version).hash r.name := hi.key_le hsplit rfl hyeven hr
    rcases mem_enterAll hb with ⟨c,hc,he⟩ | ⟨c,hc,-⟩
    · rw [he]
      apply key_lt_of_hash
      apply Nat.lt_of_lt_of_le _ hge
      rcases List.mem_append.mp hc with hc | hc
      · split at hc
        · have hzero : c.hash=0 := by
            rcases List.mem_pair.mp hc with rfl | rfl <;> rfl
          omega
        · cases hc
      · obtain ⟨q,hq,rfl⟩ := List.mem_map.mp hc
        exact hi.lt_key hsplit (by
          rw [recordsOf_append]
          exact List.mem_append_right _ hq)
    · cases hc

theorem Indexed.fill (heven : x.1%2=0) : ∃ count,htreeFillTree cfg seed d x.1 0=
      .ok (⟨treeFrom cfg seed d (x::continued post),count⟩,nextKey (following post)) := by
  obtain ⟨f,hp,hslot⟩ := hi.probe_key hl rfl heven
  have hlen := hi.shape.leaves_length
  rw [hl,List.length_append,List.length_cons] at hlen
  have hroot : ∀ s : Filling,s.root=(if x.1=0 then enterAll Fname.key d.dots [] else []) →
      enterAll Fname.key ((recordsOf cfg d.tree (x::continued post)).map
        (fnameOf (hashing seed d.tree.version))) s.root=treeFrom cfg seed d (x::continued post) := by
    intro s hs
    unfold treeFrom fnamesFrom
    rw [enterAll_append,hs,nextKey]
    congr 1
    by_cases h0 : x.1=0
    · rw [if_pos h0,if_pos h0]
    · rw [if_neg h0,if_neg h0]
      rfl
  unfold htreeFillTree
  rw [hp]
  dsimp only
  rw [hi.fillLoop hslot (by omega) (fun r hr => hi.key_le hl rfl heven hr),hroot]
  · exact ⟨_,rfl⟩
  · by_cases h0 : x.1=0
    · rw [if_pos ⟨h0,rfl⟩,if_pos h0]
      rfl
    · rw [if_neg (fun h => h0 h.1),if_neg h0]

end

end

end Trees

end Ext2fsX.Htree
