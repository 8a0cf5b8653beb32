import Ext2fsX.Htree.Resume
import Ext2fsX.Directory.Empty

namespace Ext2fsX.Htree

open Framework Directory

section Definitions

variable (cfg : Config) (seed : HashBuf) (past : UInt8) (d : DxDir)

/-- A reader that starts at 0 and passes back each offset, the `k`th time with room for `sizes k`
bytes. -/
def dxListing (sizes : ℕ → ℕ) (c : Cursor) : ℕ → Except DxStop (Cursor × Reading)
  | 0 => .ok (c,⟨[],0,false,false⟩)
  | k+1 =>
    match dxListing sizes c k with
    | .error x => .error x
    | .ok (c,r) => (readdirIndexed cfg seed past d c r.offset (sizes k)).map (fun x =>
      (x.1,{ x.2 with out := r.out++x.2.out }))

def direntEntry (e : Dirent) : List UInt8 × ℕ := (e.name,e.fileno)

/-- The calls give `.`, `..` and every live entry once, and nothing else, up to the end of the file.
-/
def Complete (sizes : ℕ → ℕ) (c : Cursor) : Prop :=
  ∃ k c' r,dxListing cfg seed past d sizes c (k+1)=.ok (c',r) ∧ r.eof=true ∧ r.error=false ∧
    (∀ j≤k,∃ x,dxListing cfg seed past d sizes c j=.ok x ∧ x.2.eof=false ∧ x.2.error=false) ∧
    (r.out.map direntEntry).Perm (indexedEntries cfg d.tree d.dot d.dotdot)

def NoDeleted : Prop := ∀ r∈recordsOf cfg d.tree d.tree.leaves,r.live=true

/-- Names of one hash fit the first buffer together with all that come before them. -/
def Unsplit (room : ℕ) : Prop :=
  ∀ pre b post,listed cfg seed d=pre++b::post → b.rest≠[] → space (chains (pre++[b])) ≤ room

/-- One buffer is enough, or the entries before the last take less room than the blocks of the
directory. -/
def Contained (room : ℕ) : Prop :=
  space (chains (listed cfg seed d)) ≤ room ∨
    ∀ fs f,chains (listed cfg seed d)=fs++[f] → space fs<d.size cfg

end Definitions

variable {cfg : Config} {seed : HashBuf} {past : UInt8} {d : DxDir} {sizes : ℕ → ℕ} {c : Cursor}

def Fname.entry (f : Fname) : List UInt8 × ℕ := (f.name,f.inode)

theorem map_direntEntry (fs : List Fname) :
    (fs.map (Fname.dirent past)).map direntEntry=fs.map Fname.entry := by
  rw [List.map_map]
  rfl

theorem sum_reclen (fs : List Fname) :
    ((fs.map (Fname.dirent past)).map Dirent.reclen).sum=space fs := by
  rw [List.map_map]
  rfl

theorem liveEntries_eq (cfg : Config) (t : IndexedDir) :
    liveEntries cfg t=entriesOf (recordsOf cfg t t.leaves) := by
  unfold liveEntries content recordsOf entriesOf
  rw [List.filter_flatMap,List.map_flatMap]
  rfl

variable (cfg seed past d sizes c) in
/-- After `k` calls the names `pre` have been given, and those of `pend` are still to come. -/
structure Standing (k : ℕ) (pre pend : List (Bucket Fname)) (c' : Cursor) (r : Reading) : Prop where
  run : dxListing cfg seed past d sizes c k=.ok (c',r)
  out : r.out=(chains pre).map (Fname.dirent past)
  offset : r.offset=space (chains pre)
  eof : r.eof=false
  error : r.error=false
  here : At cfg seed d c' pend []
  pos : r.offset=0 ∨ c'.fpos≠htreeEof
  split : listed cfg seed d=pre++pend

variable {pend : List (Bucket Fname)} {extra : List Fname} {off z room k : ℕ}
  {pre : List (Bucket Fname)} {c' : Cursor} {r : Reading}

theorem dxListing_first : ∀ j≤0,∃ x,
    dxListing cfg seed past d sizes c j=.ok x ∧ x.2.eof=false ∧ x.2.error=false := by
  intro j hj
  obtain rfl := Nat.le_zero.mp hj
  exact ⟨_,rfl,rfl,rfl⟩

theorem complete_iff (hk : dxListing cfg seed past d sizes c (k+1)=.ok (c',r)) (heof : r.eof=true)
    (herr : r.error=false)
    (hj : ∀ j≤k,∃ x,dxListing cfg seed past d sizes c j=.ok x ∧ x.2.eof=false ∧ x.2.error=false) :
    Complete cfg seed past d sizes c ↔
      (r.out.map direntEntry).Perm (indexedEntries cfg d.tree d.dot d.dotdot) := by
  constructor
  · rintro ⟨k',c2,r2,hk2,heof2,-,hj2,hperm⟩
    rcases Nat.lt_trichotomy k k' with hlt | rfl | hlt
    · obtain ⟨x,hx,hno,-⟩ := hj2 (k+1) hlt
      rw [hk] at hx
      cases hx
      rw [heof] at hno
      cases hno
    · rw [hk] at hk2
      cases hk2
      exact hperm
    · obtain ⟨x,hx,hno,-⟩ := hj (k'+1) hlt
      rw [hk2] at hx
      cases hx
      rw [heof2] at hno
      cases hno
  · intro hperm
    exact ⟨k,c',r,hk,heof,herr,hj,hperm⟩

theorem Cursor.Fresh.standing (h : c.Fresh) :
    Standing cfg seed past d sizes c 0 [] (listed cfg seed d) c ⟨[],0,false,false⟩ :=
  ⟨rfl,rfl,rfl,rfl,rfl,.start h rfl rfl,.inl rfl,rfl⟩

theorem chains_ne_nil (h : pend≠[]) : chains pend≠[] := by
  obtain ⟨b,bs,rfl⟩ := List.exists_cons_of_ne_nil h
  exact List.cons_ne_nil _ _

theorem dirsiz_pos (n : ℕ) : 0<dirsiz n := by
  unfold dirsiz
  omega

theorem space_chain_pos (b : Bucket Fname) : 0 < space b.chain := by
  exact Nat.add_pos_left (dirsiz_pos _) _

theorem cut_unique {pre pre' post post' : List (Bucket Fname)} {b b' : Bucket Fname}
    (he : pre++b::post=pre'++b'::post') (h1 : space (chains pre) ≤ z)
    (h2 : z < space (chains pre)+space b.chain) (h1' : space (chains pre') ≤ z)
    (h2' : z < space (chains pre')+space b'.chain) : b=b' := by
  rcases List.append_eq_append_iff.mp he with ⟨as,rfl,has⟩ | ⟨as,rfl,has⟩
  · cases as with
    | nil => cases has; rfl
    | cons a as =>
      cases has
      simp only [chains_append,chains_cons,space_append] at h1'
      omega
  · cases as with
    | nil => cases has; rfl
    | cons a as =>
      cases has
      simp only [chains_append,chains_cons,space_append] at h1
      omega

section Indexed

variable (hi : Indexed cfg (hashing seed d.tree.version) d.tree)

include hi

theorem Indexed.listed_entries : ((chains (listed cfg seed d)).map Fname.entry).Perm
      ((d.dot.name,d.dot.inode)::(d.dotdot.name,d.dotdot.inode)::
        (recordsOf cfg d.tree d.tree.leaves).map (fun r => (r.name,r.inode))) := by
  obtain ⟨b,ys,hl⟩ := hi.shape.leaves_head
  have hfirst : nextKey d.tree.leaves=0 := by
    rw [hl]
    rfl
  have hnames : (fnamesFrom cfg seed d d.tree.leaves).map Fname.entry=
      (d.dot.name,d.dot.inode)::(d.dotdot.name,d.dotdot.inode)::
        (recordsOf cfg d.tree d.tree.leaves).map (fun r => (r.name,r.inode)) := by
    unfold fnamesFrom
    rw [if_pos hfirst,List.map_append,List.map_map]
    rfl
  rw [← hnames]
  exact (chains_treeFrom d.tree.leaves).map Fname.entry

theorem Indexed.perm_iff :
    ((chains (listed cfg seed d)).map Fname.entry).Perm (indexedEntries cfg d.tree d.dot d.dotdot) ↔
      NoDeleted cfg d := by
  unfold indexedEntries NoDeleted
  rw [liveEntries_eq,entriesOf]
  constructor
  · intro h
    have hlen := (hi.listed_entries.symm.trans h).length_eq
    simp only [List.length_cons,List.length_map] at hlen
    have hfilter : ((recordsOf cfg d.tree d.tree.leaves).filter Record.live).length=
        (recordsOf cfg d.tree d.tree.leaves).length := by omega
    exact List.length_filter_eq_length_iff.mp hfilter
  · intro h
    rw [List.filter_eq_self.mpr h]
    exact hi.listed_entries

theorem Indexed.entries_length
    (h : NoDeleted cfg d) : (indexedEntries cfg d.tree d.dot d.dotdot).length=
      (chains (listed cfg seed d)).length := by
  rw [← (hi.perm_iff.mpr h).length_eq,List.length_map]

theorem DxDir.size_pos : 0<d.size cfg := by
  have hbs := cfg.blocksize_bounds
  exact Nat.mul_pos hi.shape.first (by omega)

variable (past) in
theorem Indexed.readdir (hat : At cfg seed d c pend extra) (hx : space extra ≤ z) (hoff : off<d.size cfg)
    (hpos : off=0 ∨ c.fpos≠htreeEof) :
    ∃ c' out,readdirIndexed cfg seed past d c off z=.ok (c',⟨out,off+(out.map Dirent.reclen).sum,
        decide (c'.fpos=htreeEof ∨ d.size cfg ≤ off+(out.map Dirent.reclen).sum),false⟩) ∧
      Answer cfg seed d past z extra pend c' out := by
  obtain ⟨c',out,hcall,hans⟩ := hi.dxReaddir past hat hx
  refine ⟨c',out,?_,hans⟩
  unfold readdirIndexed
  rw [if_neg (by omega),if_neg (by
    rintro ⟨h0,he⟩
    rcases hpos with h | h
    · exact h0 h
    · exact h he),hcall]
  rfl

theorem Standing.call
    (hs : Standing cfg seed past d sizes c k pre pend c' r) (hoff : space (chains pre)<d.size cfg) :
    ∃ c2 r2,dxListing cfg seed past d sizes c (k+1)=.ok (c2,r2) ∧ r2.error=false ∧
      (space (chains pend) ≤ sizes k ∧ r2.eof=true ∧
          r2.out=(chains (listed cfg seed d)).map (Fname.dirent past) ∨
        ∃ done b rest xs f ys,pend=done++b::rest ∧ b.chain=xs++f::ys ∧
          space (chains done)+space xs ≤ sizes k ∧
          sizes k < space (chains done)+space xs+dirsiz f.name.length ∧
          r2.eof=decide (d.size cfg ≤ r2.offset) ∧
          r2.out=(chains (pre++done)++xs).map (Fname.dirent past) ∧
          r2.offset=space (chains (pre++done)++xs) ∧ At cfg seed d c2 (b::rest) ys ∧
          c2.fpos≠htreeEof) := by
  obtain ⟨c2,out,hcall,hans⟩ := hi.readdir past (z := sizes k) hs.here (Nat.zero_le _)
    (hs.offset ▸ hoff) hs.pos
  unfold dxListing
  rw [hs.run]
  dsimp only
  rw [hcall]
  refine ⟨_,_,rfl,rfl,?_⟩
  cases hans with
  | eof fits pos out_eq =>
    left
    rw [space_nil,Nat.zero_add] at fits
    refine ⟨fits,decide_eq_true (.inl pos),?_⟩
    rw [hs.out,out_eq,hs.split,chains_append,List.nil_append,← List.map_append]
  | full done rest b xs ys f split chain fits full out_eq resume pos =>
    right
    rw [space_nil,Nat.zero_add] at fits full
    refine ⟨done,b,rest,xs,f,ys,split,chain,fits,full,
      decide_eq_decide.mpr (or_iff_right pos),?_,?_,resume,pos⟩
    · rw [hs.out,out_eq,← List.map_append,chains_append,List.nil_append,List.append_assoc]
    · rw [out_eq,sum_reclen,hs.offset,List.nil_append]
      simp

theorem At.ne_nil {c : Cursor} {extra : List Fname} (h : At cfg seed d c pend extra) : pend≠[] := by
  cases h with
  | start fresh all none =>
    obtain ⟨b,ys,hl⟩ := hi.shape.leaves_head
    rw [all,listed,hl]
    apply enterAll_ne_nil
    exact List.cons_ne_nil _ _
  | mid info data still last pos left kept curr rest bounded =>
    obtain ⟨ys,-,-,hp⟩ := rest
    rw [hp]
    exact List.append_ne_nil_of_left_ne_nil curr _

theorem Contained.offset_lt
    (h : Contained cfg seed d room) (hl : listed cfg seed d=pre++pend) (hp : pend≠[])
    (hpre : pre=[] ∨ room < space (chains (listed cfg seed d))) :
    space (chains pre)<d.size cfg := by
  rcases hpre with rfl | hlt
  · exact DxDir.size_pos hi
  rcases h with h | h
  · omega
  have hne := chains_ne_nil hp
  have hlast := List.dropLast_append_getLast hne
  have hall : chains (listed cfg seed d)=
      (chains pre++(chains pend).dropLast)++[(chains pend).getLast hne] := by
    rw [hl,chains_append,List.append_assoc,hlast]
  have hlt := h _ _ hall
  rw [space_append] at hlt
  omega

theorem Standing.complete (hroom : ∀ k,room ≤ sizes k)
    (hname : ∀ f∈chains (listed cfg seed d),dirsiz f.name.length ≤ room)
    (hno : NoDeleted cfg d) (hu : Unsplit cfg seed d room) (hc : Contained cfg seed d room)
    (hs : Standing cfg seed past d sizes c k pre pend c' r)
    (hpre : pre=[] ∨ room < space (chains (listed cfg seed d)))
    (hj : ∀ j≤k,∃ x,dxListing cfg seed past d sizes c j=.ok x ∧ x.2.eof=false ∧ x.2.error=false) :
    Complete cfg seed past d sizes c := by
  -- On the number of names to come: a call that is not the last one gives some of them.
  induction hn : pend.length using Nat.strong_induction_on generalizing k pre pend c' r with
  | h n ih =>
    obtain ⟨c2,r2,hrun,herr,hcase⟩ := hs.call hi (hc.offset_lt hi hs.split (hs.here.ne_nil hi) hpre)
    have hk := hroom k
    rcases hcase with ⟨-,heof,hout⟩ | ⟨done,b,rest,xs,f,ys,hp,hchain,hfits,hfull,heof,hout,hoff,hat,
      hpos⟩
    · refine ⟨k,c2,r2,hrun,heof,herr,hj,?_⟩
      rw [hout,map_direntEntry]
      exact hi.perm_iff.mpr hno
    have hl : listed cfg seed d=(pre++done)++b::rest := by
      rw [hs.split,hp,List.append_assoc]
    have hsingle : b.rest=[] := by
      by_contra hne
      have hle := hu (pre++done) b rest hl hne
      have hb : space b.chain=space xs+(dirsiz f.name.length+space ys) := by
        rw [hchain,space_append,space_cons]
      simp only [chains_append,chains_cons,chains_nil,space_append,space_nil] at hle
      omega
    have hcb : b.chain=[b.first] := by
      rw [Bucket.chain,hsingle]
    obtain ⟨rfl,rfl,rfl⟩ : xs=[] ∧ f=b.first ∧ ys=[] := by
      rw [hcb] at hchain
      cases xs with
      | nil =>
        injection hchain with h1 h2
        exact ⟨rfl,h1.symm,h2.symm⟩
      | cons x xs =>
        injection hchain with h1 h2
        cases xs <;> cases h2
    have hmem : b.first∈chains (listed cfg seed d) := by
      rw [hl]
      simp [Bucket.chain]
    have hbig := hname _ hmem
    rw [space_nil,Nat.add_zero] at hfits hfull
    have hdone : done≠[] := by
      rintro rfl
      rw [chains_nil,space_nil] at hfull
      omega
    have hmore : room < space (chains (listed cfg seed d)) := by
      rw [hl,chains_append,chains_append,chains_cons,hcb]
      simp only [space_append,space_cons,space_nil]
      omega
    have hbelow := hc.offset_lt hi hl (List.cons_ne_nil _ _) (.inr hmore)
    rw [List.append_nil] at hout hoff
    have heof := heof.trans (decide_eq_false (by omega))
    have hstand : Standing cfg seed past d sizes c (k+1) (pre++done) (b::rest) c2 r2 :=
      ⟨hrun,hout,hoff,heof,herr,hat,.inr hpos,hl⟩
    refine ih (b::rest).length ?_ hstand (.inr hmore) ?_ rfl
    · have hlen := List.length_pos_of_ne_nil hdone
      rw [← hn,hp,List.length_append]
      omega
    · intro j hj'
      rcases Nat.lt_or_eq_of_le hj' with hlt | rfl
      · exact hj j (by omega)
      · exact ⟨_,hrun,heof,herr⟩

theorem Indexed.noDeleted_of_complete
    (hfresh : c.Fresh) (hall : ∀ k,space (chains (listed cfg seed d)) ≤ sizes k)
    (h : Complete cfg seed past d sizes c) : NoDeleted cfg d := by
  have hs : Standing cfg seed past d sizes c 0 [] (listed cfg seed d) c ⟨[],0,false,false⟩ :=
    hfresh.standing
  obtain ⟨c2,r2,hrun,herr,hcase⟩ := hs.call hi (DxDir.size_pos hi)
  have h0 := hall 0
  rcases hcase with ⟨-,heof,hout⟩ | ⟨done,b,rest,xs,f,ys,hp,hchain,-,hfull,-⟩
  · have hperm := (complete_iff hrun heof herr dxListing_first).mp h
    rw [hout,map_direntEntry] at hperm
    exact hi.perm_iff.mp hperm
  · rw [hp,chains_append,chains_cons,hchain] at h0
    simp only [space_append,space_cons] at h0
    omega

/-- A first call that does not give all names has to stop before a name with no other in its chain,
below the size of the directory. -/
theorem Indexed.single_of_complete
    (hfresh : c.Fresh) (hno : NoDeleted cfg d) (hz : z < space (chains (listed cfg seed d)))
    (hall : ∀ w,z≤w → Complete cfg seed past d (fun k => if k=0 then z else w) c) :
    ∃ done b rest f,listed cfg seed d=done++b::rest ∧ b.chain=[f] ∧ space (chains done) ≤ z ∧
      z < space (chains done)+dirsiz f.name.length ∧ space (chains done)<d.size cfg := by
  have hcomplete := hall (z+2*space (chains (listed cfg seed d))) (Nat.le_add_right z _)
  generalize hsizes : (fun k => if k=0 then z else z+2*space (chains (listed cfg seed d)))=sizes
    at hcomplete
  have h0 : sizes 0=z := by rw [← hsizes]; rfl
  have h1 : sizes 1=z+2*space (chains (listed cfg seed d)) := by rw [← hsizes]; rfl
  have hs : Standing cfg seed past d sizes c 0 [] (listed cfg seed d) c ⟨[],0,false,false⟩ :=
    hfresh.standing
  obtain ⟨c2,r2,hrun,herr,hcase⟩ := hs.call hi (DxDir.size_pos hi)
  rw [h0] at hcase
  rcases hcase with ⟨hle,-⟩ | ⟨done,b,rest,xs,f,ys,hp,hchain,hfits,hfull,heof,hout,hoff,hat,hpos⟩
  · omega
  rw [List.nil_append] at hout hoff
  have hlist : chains (listed cfg seed d)=chains done++(xs++f::ys)++chains rest := by
    rw [hp,chains_append,chains_cons,hchain,← List.append_assoc]
  have hcount := hi.entries_length hno
  rw [hlist] at hcount
  by_cases hsize : d.size cfg ≤ r2.offset
  · -- The reader is told that the file ends here.
    have hperm := (complete_iff hrun (heof.trans (decide_eq_true hsize)) herr dxListing_first).mp
      hcomplete
    have hlen := hperm.length_eq
    rw [hcount] at hlen
    simp [hout] at hlen
  have hj : ∀ j≤1,∃ x,dxListing cfg seed past d sizes c j=.ok x ∧ x.2.eof=false ∧
      x.2.error=false := by
    intro j hj
    rcases Nat.le_one_iff_eq_zero_or_eq_one.mp hj with rfl | rfl
    · exact ⟨_,rfl,rfl,rfl⟩
    · exact ⟨_,hrun,heof.trans (decide_eq_false hsize),herr⟩
  have hsecond : dxListing cfg seed past d sizes c 2=
      (readdirIndexed cfg seed past d c2 r2.offset (sizes 1)).map (fun x =>
        (x.1,{ x.2 with out := r2.out++x.2.out })) := by
    rw [dxListing,show dxListing cfg seed past d sizes c 1=.ok (c2,r2) from hrun]
  have hspace : space (chains (listed cfg seed d))=space (chains done)+
      (space xs+(dirsiz f.name.length+space ys))+space (chains rest) := by
    rw [hlist]
    simp only [space_append,space_cons]
  have hpend : space (chains (b::rest))=
      space xs+(dirsiz f.name.length+space ys)+space (chains rest) := by
    rw [chains_cons,hchain]
    simp only [space_append,space_cons]
  obtain ⟨c3,out,hcall,hans⟩ := hi.readdir past (z := sizes 1) hat (by omega)
    (Nat.not_le.mp hsize) (.inr hpos)
  rw [hcall] at hsecond
  cases hans with
  | eof fits pos out_eq =>
    have hperm := (complete_iff hsecond (decide_eq_true (.inl pos)) rfl hj).mp hcomplete
    have hlen := hperm.length_eq
    rw [hcount] at hlen
    simp [hout,out_eq,hchain] at hlen
    have hxs : xs=[] := List.eq_nil_of_length_eq_zero (by omega)
    have hys : ys=[] := List.eq_nil_of_length_eq_zero (by omega)
    subst hxs hys
    rw [List.append_nil] at hoff
    exact ⟨done,b,rest,f,hp,hchain,hfits,hfull,by omega⟩
  | full done' rest' b' xs' ys' f' split chain fits full out_eq resume pos' =>
    rw [split,chains_append,chains_cons,chain] at hpend
    simp only [space_append,space_cons] at hpend
    omega

theorem Indexed.unsplit_of_complete (hfresh : c.Fresh) (hno : NoDeleted cfg d)
    (hall : ∀ sizes,(∀ k,room ≤ sizes k) → Complete cfg seed past d sizes c) :
    Unsplit cfg seed d room := by
  intro pre b post hl hrest
  by_contra hgt
  -- The first buffer has room for the names before the chain, but not for all of it.
  have hb := space_chain_pos b
  simp only [chains_append,chains_cons,chains_nil,space_append,space_nil] at hgt
  have hz : max room (space (chains pre)) < space (chains (listed cfg seed d)) := by
    rw [hl,chains_append,chains_cons,space_append,space_append]
    omega
  obtain ⟨done,b',rest,f,hl',hchain,hle,hlt,-⟩ := hi.single_of_complete hfresh hno hz
    (fun w hw => hall _ (fun k => by split <;> omega))
  have hone : space b'.chain=dirsiz f.name.length := by
    rw [hchain,space_cons,space_nil,Nat.add_zero]
  have hsame : b=b' := cut_unique (hl.symm.trans hl') (by omega) (by omega) hle (by omega)
  rw [← hsame,Bucket.chain] at hchain
  injection hchain with h1 h2
  exact hrest h2

theorem Indexed.contained_of_complete (hfresh : c.Fresh) (hno : NoDeleted cfg d)
    (hall : ∀ sizes,(∀ k,room ≤ sizes k) → Complete cfg seed past d sizes c) :
    Contained cfg seed d room := by
  by_cases hroom : space (chains (listed cfg seed d)) ≤ room
  · exact .inl hroom
  right
  intro fs f hfs
  have hf := dirsiz_pos f.name.length
  have htotal : space (chains (listed cfg seed d))=space fs+dirsiz f.name.length := by
    rw [hfs,space_append,space_cons,space_nil,Nat.add_zero]
  -- The first buffer has room for all names but the last.
  have hz : max room (space fs) < space (chains (listed cfg seed d)) := by omega
  obtain ⟨done,b,rest,g,hl,hchain,hle,hlt,hsize⟩ := hi.single_of_complete hfresh hno hz
    (fun w hw => hall _ (fun k => by split <;> omega))
  rw [hl,chains_append,chains_cons,hchain,List.singleton_append] at hfs
  rcases List.eq_nil_or_concat (chains rest) with hnil | ⟨gs,h,hgs⟩
  · rw [hnil] at hfs
    rwa [(List.append_inj_left' hfs rfl).symm]
  · rw [hgs,List.concat_eq_append,← List.cons_append,← List.append_assoc] at hfs
    rw [← List.append_inj_left' hfs rfl] at hle hlt
    simp only [space_append,space_cons] at hlt
    omega

end Indexed

/-- When every listing from a fresh cursor is complete, with buffers that hold any entry. -/
theorem listing_complete_iff (cfg : Config) (seed : HashBuf) (past : UInt8) (d : DxDir) (c : Cursor)
    (room : ℕ) (hi : Indexed cfg (hashing seed d.tree.version) d.tree) (hfresh : c.Fresh)
    (hroom : ∀ r∈d.dot::d.dotdot::recordsOf cfg d.tree d.tree.leaves,dirsiz r.name.length ≤ room) :
    (∀ sizes,(∀ k,room ≤ sizes k) → Complete cfg seed past d sizes c) ↔
      NoDeleted cfg d ∧ Unsplit cfg seed d room ∧ Contained cfg seed d room := by
  constructor
  · intro hall
    have hno : NoDeleted cfg d := by
      apply hi.noDeleted_of_complete hfresh (fun k => Nat.le_max_right room _)
      exact hall _ (fun k => Nat.le_max_left room _)
    exact ⟨hno,hi.unsplit_of_complete hfresh hno hall,hi.contained_of_complete hfresh hno hall⟩
  · rintro ⟨hno,hu,hc⟩ sizes hsizes
    have hname : ∀ f∈chains (listed cfg seed d),dirsiz f.name.length ≤ room := by
      intro f hf
      have hmem := hi.listed_entries.subset (List.mem_map_of_mem hf)
      rcases List.mem_cons.mp hmem with he | hmem
      · rw [show f.name=d.dot.name from congrArg Prod.fst he]
        exact hroom _ List.mem_cons_self
      rcases List.mem_cons.mp hmem with he | hmem
      · rw [show f.name=d.dotdot.name from congrArg Prod.fst he]
        exact hroom _ (List.mem_cons_of_mem _ List.mem_cons_self)
      · obtain ⟨r,hr,he⟩ := List.mem_map.mp hmem
        rw [show f.name=r.name from (congrArg Prod.fst he).symm]
        exact hroom _ (List.mem_cons_of_mem _ (List.mem_cons_of_mem _ hr))
    have hs : Standing cfg seed past d sizes c 0 [] (listed cfg seed d) c ⟨[],0,false,false⟩ :=
      hfresh.standing
    exact hs.complete hi hsizes hname hno hu hc (.inl rfl) dxListing_first

section Samples

def oneLeaf (rs : List Record) : DxDir :=
  ⟨⟨2,0,[⟨0,1⟩],fun _ => [],fun _ => layRecords rs,2⟩,⟨11,12,2,[46]⟩,⟨2,1012,2,[46,46]⟩⟩

def newCursor : Cursor := ⟨0,none,false⟩

theorem newCursor_fresh : newCursor.Fresh := .inr ⟨rfl,nofun⟩

variable {rs : List Record}

theorem oneLeaf_indexed (hl : Leaf smallConfig (layRecords rs) rs) :
    Indexed smallConfig (hashing seed (oneLeaf rs).tree.version) (oneLeaf rs).tree where
  shape := ⟨Nat.zero_le 1,List.cons_ne_nil _ _,nofun,show 1 ≤ rootLimit smallConfig by decide,nofun,
    Nat.zero_lt_two,List.Perm.refl [1]⟩
  known := rfl
  leaf := fun _ _ => ⟨rs,hl⟩
  ranged := ⟨fun _ _ => Nat.zero_le _,nofun,trivial⟩

theorem listing_complete_two :
    (∀ sizes,(∀ k,264 ≤ sizes k) →
        Complete smallConfig ⟨0,0,0,0⟩ 0 (oneLeaf twoRecords) sizes newCursor) ↔
      NoDeleted smallConfig (oneLeaf twoRecords) ∧
        Unsplit smallConfig ⟨0,0,0,0⟩ (oneLeaf twoRecords) 264 ∧
        Contained smallConfig ⟨0,0,0,0⟩ (oneLeaf twoRecords) 264 := by
  apply listing_complete_iff smallConfig ⟨0,0,0,0⟩ 0 (oneLeaf twoRecords) newCursor 264
    (oneLeaf_indexed twoRecords_leaf) newCursor_fresh
  decide

def removedRecords : List Record := [⟨0,12,1,nameX.bytes⟩,⟨12,1012,1,nameA.bytes⟩]

theorem removedRecords_leaf : Leaf smallConfig (layRecords removedRecords) removedRecords :=
  layRecords_leaf (by decide +kernel) (by decide +kernel) (by decide +kernel)

theorem removed_listed :
    Indexed smallConfig (hashing ⟨0,0,0,0⟩ (oneLeaf removedRecords).tree.version)
        (oneLeaf removedRecords).tree ∧ newCursor.Fresh ∧
      ¬Complete smallConfig ⟨0,0,0,0⟩ 0 (oneLeaf removedRecords) (fun _ => 264) newCursor := by
  have hi : Indexed smallConfig (hashing ⟨0,0,0,0⟩ (oneLeaf removedRecords).tree.version)
      (oneLeaf removedRecords).tree := oneLeaf_indexed removedRecords_leaf
  refine ⟨hi,newCursor_fresh,?_⟩
  intro h
  have hno := hi.noDeleted_of_complete newCursor_fresh (fun _ => by decide +kernel) h
  unfold NoDeleted at hno
  revert hno
  decide

end Samples

end Ext2fsX.Htree
