import Ext2fsX.Htree.Fill

namespace Ext2fsX.Htree

open Framework Directory

def space (fs : List Fname) : ℕ := total (fun f => dirsiz f.name.length) fs

def chains (bs : List (Bucket Fname)) : List Fname := bs.flatMap Bucket.chain

structure Overflows (resid : ℕ) (fs xs : List Fname) (f : Fname) (ys : List Fname) : Prop where
  split : fs=xs++f::ys
  fits : space xs ≤ resid
  full : resid < space xs+dirsiz f.name.length

variable {past : UInt8} {resid : ℕ}

@[simp] theorem space_nil : space []=0 := rfl

@[simp] theorem space_cons (f : Fname) (fs : List Fname) :
    space (f::fs)=dirsiz f.name.length+space fs := total_cons f fs

@[simp] theorem space_append (fs gs : List Fname) : space (fs++gs)=space fs+space gs :=
  total_append fs gs

@[simp] theorem chains_nil : chains []=[] := rfl

@[simp] theorem chains_cons (b : Bucket Fname) (bs : List (Bucket Fname)) :
    chains (b::bs)=b.chain++chains bs := List.flatMap_cons

@[simp] theorem chains_append (bs cs : List (Bucket Fname)) :
    chains (bs++cs)=chains bs++chains cs := List.flatMap_append

theorem overflows_of_lt {fs : List Fname} (h : resid < space fs) :
    ∃ xs f ys,Overflows resid fs xs f ys := by
  induction fs generalizing resid with
  | nil => cases h
  | cons g gs ih =>
    rw [space_cons] at h
    by_cases hg : resid<dirsiz g.name.length
    · exact ⟨[],g,gs,rfl,Nat.zero_le _,by simpa using hg⟩
    obtain ⟨xs,f,ys,rfl,h1,h2⟩ := ih (show resid-dirsiz g.name.length < space gs by omega)
    refine ⟨g::xs,f,ys,rfl,?_,?_⟩
    · rw [space_cons]
      omega
    · rw [space_cons]
      omega

theorem callFilldir_fits {pos : ℕ} {fs : List Fname} {s : Listing} (h : space fs ≤ s.resid) :
    callFilldir past pos fs s=({ s with
      resid := s.resid-space fs, out := s.out++fs.map (Fname.dirent past) },false) := by
  induction fs generalizing s with
  | nil => simp [callFilldir]
  | cons f fs ih =>
    rw [space_cons] at h
    rw [callFilldir,if_neg (by omega),ih (by dsimp only; omega)]
    simp [Nat.sub_add_eq]

/-- `call_filldir` stops at the name that does not fit, and keeps the names behind it. -/
theorem callFilldir_overflows {pos : ℕ} {fs xs ys : List Fname} {f : Fname} {s : Listing}
    (h : Overflows s.resid fs xs f ys) :
    callFilldir past pos fs s=({ s with
      fpos := pos, info := { s.info with extra := ys, freed := false }
      resid := s.resid-space xs, out := s.out++xs.map (Fname.dirent past) },true) := by
  obtain ⟨rfl,h1,h2⟩ := h
  induction xs generalizing s with
  | nil =>
    rw [space_nil] at h2
    rw [List.nil_append,callFilldir,if_pos (by omega)]
    simp
  | cons x xs ih =>
    rw [space_cons] at h1 h2
    rw [List.cons_append,callFilldir,if_neg (by omega),ih (by dsimp only; omega)
      (by dsimp only; omega)]
    simp [Nat.sub_add_eq]

section Loop

variable (cfg : Config) (seed : HashBuf) (d : DxDir)

structure Paused (s : Listing) (pend : List (Bucket Fname)) : Prop where
  curr : s.info.curr≠[]
  still : s.dxUpdate=false
  rest : ∃ ys,Resumable d ys ∧ s.info.nextHash=nextKey ys ∧
    pend=s.info.curr++treeFrom cfg seed d ys

structure Emptied (s : Listing) (pend : List (Bucket Fname)) : Prop where
  curr : s.info.curr=[] ∨ s.dxUpdate=true
  minor : s.info.currMinorHash=0
  rest : ∃ y ys,Resumable d (y::ys) ∧ s.info.currHash=y.1 ∧ pend=treeFrom cfg seed d (y::ys)

/-- How a call ends: at the end of the directory, or in the chain of a name that does not fit. -/
inductive Ended (past : UInt8) (s s' : Listing) (pend : List (Bucket Fname)) : Prop
  | eof (fits : space (chains pend) ≤ s.resid) (pos : s'.fpos=htreeEof)
      (out : s'.out=s.out++(chains pend).map (Fname.dirent past)) (still : s'.dxUpdate=false)
  | full (done rest : List (Bucket Fname)) (b : Bucket Fname) (xs ys : List Fname) (f : Fname)
      (split : pend=done++b::rest)
      (overflow : Overflows (s.resid-space (chains done)) b.chain xs f ys)
      (fits : space (chains done) ≤ s.resid) (pos : s'.fpos=b.first.hash/2)
      (out : s'.out=s.out++(chains done++xs).map (Fname.dirent past))
      (paused : Paused cfg seed d s' (b::rest)) (extra : s'.info.extra=ys)
      (kept : s'.info.freed=false)

variable {cfg seed d} {s : Listing} {pend : List (Bucket Fname)}

theorem Indexed.refilled (hi : Indexed cfg (hashing seed d.tree.version) d.tree)
    (h : Paused cfg seed d s pend ∨ Emptied cfg seed d s pend) :
    ∃ s1,(if s.info.curr=[] ∨ s.dxUpdate=true then refill cfg seed d s else .ok s)=.ok s1 ∧
      Paused cfg seed d s1 pend ∧ s1.resid=s.resid ∧ s1.out=s.out := by
  rcases h with h | h
  · have hno : ¬(s.info.curr=[] ∨ s.dxUpdate=true) := by
      rintro (hc | hc)
      · exact h.curr hc
      · rw [h.still] at hc
        cases hc
    exact ⟨s,if_neg hno,h,rfl,rfl⟩
  obtain ⟨hcurr,hminor,y,ys,⟨⟨pre,hl⟩,heven⟩,hhash,hpend⟩ := h
  have hy := heven y rfl
  obtain ⟨count,hfill⟩ := hi.fill hl hy
  rw [if_pos hcurr]
  unfold refill
  rw [hhash,hminor,hfill]
  refine ⟨_,rfl,⟨?_,rfl,following ys,hi.resumable_following hl,rfl,?_⟩,rfl,rfl⟩
  · apply enterAll_ne_nil
    unfold fnamesFrom
    rw [recordsOf_cons]
    have hne := hi.records_ne_nil (y := y) (by rw [hl]; simp)
    simp [hne]
  · rw [hpend,hi.treeFrom_split hl]

theorem Ended.cons {t s' : Listing} {b : Bucket Fname} {bs : List (Bucket Fname)}
    (hfits : space b.chain ≤ s.resid) (hresid : t.resid=s.resid-space b.chain)
    (hout : t.out=s.out++b.chain.map (Fname.dirent past)) (h : Ended cfg seed d past t s' bs) :
    Ended cfg seed d past s s' (b::bs) := by
  cases h with
  | eof fits pos out still =>
    refine .eof ?_ pos ?_ still
    · rw [chains_cons,space_append]
      omega
    · rw [out,hout,chains_cons,List.map_append,List.append_assoc]
  | full done rest c xs ys f split overflow fits pos out paused extra kept =>
    have hspace : space (chains (b::done))=space b.chain+space (chains done) := by
      rw [chains_cons,space_append]
    refine .full (b::done) rest c xs ys f (by rw [split]; rfl) ?_ ?_ pos ?_ paused extra kept
    · rw [hspace,Nat.sub_add_eq,← hresid]
      exact overflow
    · omega
    · rw [out,hout]
      simp

/-- The loop of `ext3_dx_readdir` goes on with the names that are to come. -/
theorem Indexed.dxLoop (hi : Indexed cfg (hashing seed d.tree.version) d.tree) {fuel : ℕ}
    (h : Paused cfg seed d s pend ∨ Emptied cfg seed d s pend) (hf : pend.length≤fuel) :
    ∃ s',dxLoop cfg seed past d fuel s=.ok s' ∧ Ended cfg seed d past s s' pend := by
  induction pend generalizing s fuel with
  | nil =>
    obtain ⟨s1,-,⟨hcurr,-,ys,-,-,hpend⟩,-⟩ := hi.refilled h
    exact absurd (List.append_eq_nil_iff.mp hpend.symm).1 hcurr
  | cons p ps ih =>
    obtain ⟨s1,hrefill,⟨hcurr,hstill,ys,hres,hnext,hpend⟩,hresid,hout⟩ := hi.refilled h
    obtain ⟨b,cs,hbs⟩ := List.exists_cons_of_ne_nil hcurr
    rw [hbs,List.cons_append] at hpend
    cases hpend
    obtain ⟨fuel,rfl⟩ : ∃ n,fuel=n+1 := ⟨fuel-1,by rw [List.length_cons] at hf; omega⟩
    rw [List.length_cons] at hf
    unfold Htree.dxLoop
    rw [hrefill]
    dsimp only
    rw [hbs]
    dsimp only
    by_cases hfit : space p.chain ≤ s1.resid
    · rw [callFilldir_fits]
      swap
      · exact hfit
      dsimp only
      have hcons {t s' : Listing} (hr : t.resid=s1.resid-space p.chain)
          (ho : t.out=s1.out++p.chain.map (Fname.dirent past))
          (he : Ended cfg seed d past t s' (cs++treeFrom cfg seed d ys)) :
          Ended cfg seed d past s s' (p::(cs++treeFrom cfg seed d ys)) :=
        he.cons (by omega) (by rw [hr,hresid]) (by rw [ho,hout])
      cases cs with
      | cons c cs =>
        obtain ⟨s',hloop,hend⟩ := @ih { s1 with
            info := { s1.info with
              currHash := p.first.hash, currMinorHash := p.first.minorHash, curr := c::cs }
            resid := s1.resid-space p.chain, out := s1.out++p.chain.map (Fname.dirent past) } fuel
          (.inl ⟨List.cons_ne_nil c cs,hstill,ys,hres,hnext,rfl⟩) (by omega)
        exact ⟨s',hloop,hcons rfl rfl hend⟩
      | nil =>
        rw [if_pos rfl,hnext]
        cases ys with
        | nil =>
          refine ⟨_,rfl,.eof ?_ rfl ?_ hstill⟩
          · have hall : chains (p::([]++treeFrom cfg seed d []))=p.chain := List.append_nil p.chain
            rw [hall]
            omega
          · simp [hout,treeFrom_nil,chains]
        | cons y ys =>
          have hy := hres.2 y rfl
          rw [nextKey,if_neg (by omega)]
          obtain ⟨s',hloop,hend⟩ := @ih { s1 with
              info := { s1.info with
                currHash := y.1, currMinorHash := 0, curr := [], nextHash := y.1 }
              resid := s1.resid-space p.chain, out := s1.out++p.chain.map (Fname.dirent past) } fuel
            (.inr ⟨.inl rfl,rfl,y,ys,hres,rfl,rfl⟩) (by omega)
          exact ⟨s',hloop,hcons rfl rfl hend⟩
    · obtain ⟨xs,f,zs,hover⟩ := overflows_of_lt (Nat.not_le.mp hfit)
      rw [callFilldir_overflows]
      swap
      · exact hover
      refine ⟨_,rfl,.full [] (cs++treeFrom cfg seed d ys) p xs zs f rfl ?_ (Nat.zero_le _) rfl ?_
        ⟨?_,hstill,ys,hres,hnext,?_⟩ rfl rfl⟩
      · rw [← hresid]
        exact hover
      · rw [← hout]
        rfl
      · exact List.cons_ne_nil p cs
      · rfl

end Loop

end Ext2fsX.Htree
