import Ext2fsX.Htree.Emit

namespace Ext2fsX.Htree

open Framework Directory

/-- The last listing has come to its end, or there has been none since `f_pos` was set to the start.
-/
def Cursor.Fresh (c : Cursor) : Prop :=
  c.fpos=htreeEof ∨ c.fpos=0 ∧ ∀ info∈c.info,info.lastPos≠0

variable {cfg : Config} {seed : HashBuf} {past : UInt8} {d : DxDir}

theorem Shape.leaves_head {t : IndexedDir} (hs : Shape cfg t) : ∃ b ys,t.leaves=(0,b)::ys := by
  obtain ⟨e,es,he⟩ := List.exists_cons_of_ne_nil hs.root
  have hnodes := hs.nodes
  unfold IndexedDir.leaves
  unfold IndexedDir.nodes at hnodes
  by_cases h0 : t.levels=0
  · rw [if_pos h0,he]
    exact ⟨_,_,rfl⟩
  rw [if_neg h0,he] at hnodes
  obtain ⟨f,fs,hf⟩ := List.exists_cons_of_ne_nil (hnodes (0,e.getBlock) List.mem_cons_self)
  rw [if_neg h0,he]
  unfold IndexedDir.under keyed
  rw [List.flatMap_cons]
  rw [hf]
  exact ⟨_,_,rfl⟩

variable (cfg seed d)

def listed : List (Bucket Fname) := treeFrom cfg seed d d.tree.leaves

structure Bounded (pend : List (Bucket Fname)) : Prop where
  length : pend.length ≤ d.rounds cfg
  below : ∀ b∈pend,b.first.hash<4294967294

/-- A call that starts with the cursor `c` has the names `extra` and then `pend` before it. -/
inductive At (c : Cursor) (pend : List (Bucket Fname)) (extra : List Fname) : Prop
  | start (fresh : c.Fresh) (all : pend=listed cfg seed d) (none : extra=[])
  | mid (info : DirInfo) (data : c.info=some info) (still : c.dxUpdate=false)
      (last : info.lastPos=c.fpos) (pos : c.fpos≠htreeEof) (left : info.extra=extra)
      (kept : info.freed=false) (curr : info.curr≠[])
      (rest : ∃ ys,Resumable d ys ∧ info.nextHash=nextKey ys ∧
        pend=info.curr++treeFrom cfg seed d ys) (bounded : Bounded cfg d pend)

/-- What a call with room for `z` bytes gives. -/
inductive Answer (past : UInt8) (z : ℕ) (extra : List Fname) (pend : List (Bucket Fname))
    (c' : Cursor) (out : List Dirent) : Prop
  | eof (fits : space extra+space (chains pend) ≤ z) (pos : c'.fpos=htreeEof)
      (out_eq : out=(extra++chains pend).map (Fname.dirent past))
  | full (done rest : List (Bucket Fname)) (b : Bucket Fname) (xs ys : List Fname) (f : Fname)
      (split : pend=done++b::rest) (chain : b.chain=xs++f::ys)
      (fits : space extra+space (chains done)+space xs ≤ z)
      (full : z < space extra+space (chains done)+space xs+dirsiz f.name.length)
      (out_eq : out=(extra++chains done++xs).map (Fname.dirent past))
      (resume : At cfg seed d c' (b::rest) ys) (pos : c'.fpos≠htreeEof)

variable {cfg seed d}

section Bounds

theorem length_le_chains (bs : List (Bucket Fname)) : bs.length ≤ (chains bs).length := by
  induction bs with
  | nil => exact Nat.zero_le _
  | cons b bs ih =>
    rw [chains_cons,List.length_append,List.length_cons,Bucket.chain,List.length_cons]
    omega

theorem chains_treeFrom (ys : List (ℕ × ℕ)) :
    (chains (treeFrom cfg seed d ys)).Perm (fnamesFrom cfg seed d ys) := by
  have hp : (chains (treeFrom cfg seed d ys)).Perm (fnamesFrom cfg seed d ys++[]) :=
    chains_enterAll (fnamesFrom cfg seed d ys) []
  rwa [List.append_nil] at hp

theorem recordsOf_length_le {t : IndexedDir} {ys : List (ℕ × ℕ)}
    (h : ∀ y∈ys,∃ rs,Leaf cfg (t.leaf y.2) rs) :
    (recordsOf cfg t ys).length ≤ ys.length*cfg.blocksize := by
  induction ys with
  | nil => exact Nat.zero_le _
  | cons y ys ih =>
    obtain ⟨⟨rs,hl⟩,hys⟩ := List.forall_mem_cons.mp h
    have hle := hl.length_le
    have hrest := ih hys
    rw [recordsOf_cons,hl.blockRecords,List.length_append,List.length_cons,Nat.add_mul,Nat.one_mul]
    omega

theorem Indexed.bounded (hi : Indexed cfg (hashing seed d.tree.version) d.tree) :
    Bounded cfg d (listed cfg seed d) := by
  constructor
  · have hlen := length_le_chains (listed cfg seed d)
    have hperm : (chains (treeFrom cfg seed d d.tree.leaves)).length=
        (fnamesFrom cfg seed d d.tree.leaves).length := (chains_treeFrom d.tree.leaves).length_eq
    have hrec := recordsOf_length_le hi.leaf
    have hmul := Nat.mul_le_mul_right cfg.blocksize (Nat.le_of_lt hi.shape.leaves_length)
    have hdots : (fnamesFrom cfg seed d d.tree.leaves).length ≤
        2+(recordsOf cfg d.tree d.tree.leaves).length := by
      unfold fnamesFrom
      rw [List.length_append,List.length_map]
      split
      · exact Nat.le_refl _
      · exact Nat.add_le_add_right (Nat.zero_le 2) _
    unfold DxDir.rounds DxDir.size
    unfold listed at hlen ⊢
    omega
  · intro b hb
    rcases mem_enterAll hb with ⟨f,hf,he⟩ | ⟨c,hc,-⟩
    · have hhash : b.first.hash=f.hash := congrArg (fun k => (ofLex k).1) he
      rw [hhash]
      rcases List.mem_append.mp hf with hf | hf
      · split at hf
        · have hzero : f.hash=0 := by
            rcases List.mem_pair.mp hf with rfl | rfl <;> rfl
          omega
        · cases hf
      · obtain ⟨r,-,rfl⟩ := List.mem_map.mp hf
        exact (hashing seed d.tree.version).below r.name
    · cases hc

theorem Bounded.drop {done rest : List (Bucket Fname)} (h : Bounded cfg d (done++rest)) :
    Bounded cfg d rest := by
  refine ⟨?_,fun b hb => h.below b (List.mem_append_right done hb)⟩
  have hlen := h.length
  rw [List.length_append] at hlen
  omega

end Bounds

theorem Cursor.Fresh.rewind {c : Cursor} (h : c.Fresh) :
    ∃ last next,Htree.rewind c=(⟨[],[],[],false,last,0,0,next⟩,0) := by
  unfold Htree.rewind
  rcases h with h | ⟨h0,hinfo⟩
  · dsimp only
    rw [if_pos h]
    exact ⟨_,_,rfl⟩
  dsimp only
  rw [h0,if_neg (show ¬0=htreeEof by decide)]
  cases hc : c.info with
  | none => exact ⟨_,_,rfl⟩
  | some info =>
    rw [Option.getD_some,if_pos (hinfo info hc)]
    exact ⟨_,_,rfl⟩

section Calls

variable {c : Cursor} {pend : List (Bucket Fname)} {extra : List Fname} {z : ℕ}

def Listing.cursor (s : Listing) : Cursor :=
  ⟨s.fpos,some { s.info with lastPos := s.fpos },s.dxUpdate⟩

def Listing.begun (s : Listing) : Listing :=
  { s with info := { s.info with curr := if s.info.curr=[] then s.info.root else s.info.curr } }

theorem dxReaddir_of_nil {info : DirInfo} {fpos : ℕ} (hr : rewind c=(info,fpos))
    (he : info.extra=[]) : dxReaddir cfg seed past d c z=(dxLoop cfg seed past d (d.rounds cfg)
        (Listing.begun ⟨info,fpos,c.dxUpdate,z,[]⟩)).map (fun s => (s.cursor,s.out)) := by
  unfold dxReaddir
  rw [hr]
  dsimp only
  split
  · rfl
  · next h =>
    rw [he] at h
    cases h

theorem dxReaddir_of_fits {info : DirInfo} {fpos : ℕ} (hr : rewind c=(info,fpos))
    (hk : info.freed=false) (hx : space info.extra ≤ z) : dxReaddir cfg seed past d c z=
      (dxLoop cfg seed past d (d.rounds cfg)
        (Listing.begun ⟨info,fpos,c.dxUpdate,z-space info.extra,
          info.extra.map (Fname.dirent past)⟩)).map (fun s => (s.cursor,s.out)) := by
  cases he : info.extra with
  | nil => exact dxReaddir_of_nil hr he
  | cons f fs =>
    rw [he] at hx
    unfold dxReaddir
    rw [hr]
    dsimp only
    split
    · next h =>
      rw [he] at h
      cases h
    next g gs h =>
    rw [he] at h
    cases h
    rw [hk,if_neg Bool.false_ne_true,callFilldir_fits]
    swap
    · exact hx
    rfl

theorem Indexed.finish (hi : Indexed cfg (hashing seed d.tree.version) d.tree) {s : Listing}
    (h : Paused cfg seed d s pend ∨ Emptied cfg seed d s pend) (hb : Bounded cfg d pend)
    (hresid : s.resid+space extra=z) (hout : s.out=extra.map (Fname.dirent past)) :
    ∃ s',Htree.dxLoop cfg seed past d (d.rounds cfg) s=.ok s' ∧
      Answer cfg seed d past z extra pend s'.cursor s'.out := by
  obtain ⟨s',hloop,hend⟩ : ∃ s',Htree.dxLoop cfg seed past d (d.rounds cfg) s=.ok s' ∧
      Ended cfg seed d past s s' pend := hi.dxLoop h hb.length
  refine ⟨s',hloop,?_⟩
  cases hend with
  | eof fits pos out still =>
    refine .eof (by omega) pos ?_
    rw [out,hout,List.map_append]
  | full done rest b xs ys f split overflow fits pos out paused left kept =>
    have hpend : Bounded cfg d (b::rest) := by
      rw [split] at hb
      exact hb.drop
    -- The position is half a hash, and the end is half of one that no name has.
    have hne : s'.fpos≠htreeEof := by
      have hlt := hpend.below b List.mem_cons_self
      unfold htreeEof
      omega
    have h1 := overflow.fits
    have h2 := overflow.full
    refine .full done rest b xs ys f split overflow.split (by omega) (by omega) ?_ ?_ hne
    · rw [out,hout,← List.map_append,List.append_assoc]
    · exact .mid { s'.info with lastPos := s'.fpos } rfl paused.still rfl hne left kept paused.curr
        paused.rest hpend

variable (past) in
theorem Indexed.dxReaddir (hi : Indexed cfg (hashing seed d.tree.version) d.tree)
    (hat : At cfg seed d c pend extra) (hx : space extra ≤ z) :
    ∃ c' out,dxReaddir cfg seed past d c z=.ok (c',out) ∧
      Answer cfg seed d past z extra pend c' out := by
  cases hat with
  | start fresh all none =>
    obtain ⟨last,next,hrewind⟩ := fresh.rewind
    obtain ⟨b,ys,hleaves⟩ := hi.shape.leaves_head
    have hempty : Emptied cfg seed d
        (Listing.begun ⟨⟨[],[],[],false,last,0,0,next⟩,0,c.dxUpdate,z,[]⟩) pend := by
      refine ⟨.inl rfl,rfl,(0,b),ys,⟨⟨[],hleaves⟩,?_⟩,rfl,?_⟩
      · intro y hy
        obtain rfl := Option.some.inj hy
        rfl
      · rw [all,listed,hleaves]
    have hb : Bounded cfg d pend := by
      rw [all]
      exact hi.bounded
    rw [none,dxReaddir_of_nil hrewind rfl]
    have hout : (Listing.begun ⟨⟨[],[],[],false,last,0,0,next⟩,0,c.dxUpdate,z,[]⟩).out=
        ([] : List Fname).map (Fname.dirent past) := rfl
    obtain ⟨s',hloop,hans⟩ := hi.finish (.inr hempty) hb rfl hout
    rw [hloop]
    exact ⟨_,_,rfl,hans⟩
  | mid info data still last pos left kept curr rest bounded =>
    have hrewind : Htree.rewind c=(info,c.fpos) := by
      unfold Htree.rewind
      rw [data,Option.getD_some]
      dsimp only
      rw [if_neg pos]
      dsimp only
      rw [if_neg (not_not_intro last)]
    rw [← left] at hx ⊢
    rw [dxReaddir_of_fits hrewind kept hx]
    have hpaused : Paused cfg seed d (Listing.begun ⟨info,c.fpos,c.dxUpdate,z-space info.extra,
        info.extra.map (Fname.dirent past)⟩) pend := by
      unfold Listing.begun
      dsimp only
      rw [if_neg curr]
      exact ⟨curr,still,rest⟩
    obtain ⟨s',hloop,hans⟩ := hi.finish (.inl hpaused) bounded (Nat.sub_add_cancel hx) rfl
    rw [hloop]
    exact ⟨_,_,rfl,hans⟩

end Calls

end Ext2fsX.Htree
