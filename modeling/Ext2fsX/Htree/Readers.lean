import Ext2fsX.Htree.Complete

namespace Ext2fsX.Htree

open Framework Directory
open Function (update update_self update_of_ne)

section Machine

variable (cfg : Config) (seed : HashBuf) (past : UInt8) (d : DxDir)

/-- A call of `ext2_readdir`: which of the two readers makes it, and the room in its buffer. -/
structure Call where
  reader : Bool
  room : ℕ

/-- The cursor is in the inode. `last` made the last call that did not start at or behind the end of
the directory. -/
structure Readers where
  cursor : Cursor
  offset : Bool → ℕ
  given : Bool → List Reading
  last : Option Bool

def Readers.start (c : Cursor) : Readers := ⟨c,fun _ => 0,fun _ => [],none⟩

/-- Two readers of one directory; a call that does not come back has no step. -/
def readers (c : Cursor) : Machine Readers Call where
  init s := s=Readers.start c
  next x s :=
    match readdirIndexed cfg seed past d s.cursor (s.offset x.reader) x.room with
    | .error _ => none
    | .ok (c',r) => some
        { cursor := c'
          offset := update s.offset x.reader r.offset
          given := update s.given x.reader (s.given x.reader++[r])
          last := if d.size cfg ≤ s.offset x.reader then s.last else some x.reader }

/-- A reader goes on with its own listing, or starts one that no other listing has left traces for.
-/
def Apart (c : Cursor) (s : Readers) (x : Call) : Prop :=
  d.size cfg ≤ s.offset x.reader ∨ s.last=some x.reader ∨
    s.given x.reader=[] ∧ (s.last=none ∨ s.cursor.Fresh ∧ c.Fresh)

end Machine

variable {cfg : Config} {seed : HashBuf} {past : UInt8} {d : DxDir} {c : Cursor}

section Starts

def Listing.setLast (v : ℕ) (s : Listing) : Listing :=
  { s with info := { s.info with lastPos := v } }

theorem callFilldir_setLast (v pos : ℕ) (fs : List Fname) (s : Listing) :
    callFilldir past pos fs (s.setLast v)=
      ((callFilldir past pos fs s).1.setLast v,(callFilldir past pos fs s).2) := by
  induction fs generalizing s with
  | nil => rfl
  | cons f fs ih =>
    unfold callFilldir
    by_cases hf : s.resid<dirsiz f.name.length
    · rw [if_pos hf,if_pos (show (s.setLast v).resid<_ from hf)]
      rfl
    · rw [if_neg hf,if_neg (show ¬(s.setLast v).resid<_ from hf)]
      exact ih { s with
        resid := s.resid-dirsiz f.name.length, out := s.out++[f.dirent past] }

theorem refill_setLast (v : ℕ) (s : Listing) :
    refill cfg seed d (s.setLast v)=(refill cfg seed d s).map (Listing.setLast v) := by
  unfold refill
  dsimp only [Listing.setLast]
  cases htreeFillTree cfg seed d s.info.currHash s.info.currMinorHash with
  | _ => rfl

/-- The loop of `ext3_dx_readdir` does not look at `last_pos`. -/
theorem dxLoop_setLast (v fuel : ℕ) (s : Listing) : dxLoop cfg seed past d fuel (s.setLast v)=
      (dxLoop cfg seed past d fuel s).map (Listing.setLast v) := by
  induction fuel generalizing s with
  | zero => rfl
  | succ fuel ih =>
    have hhead : (if (s.setLast v).info.curr=[] ∨ (s.setLast v).dxUpdate=true then
          refill cfg seed d (s.setLast v) else .ok (s.setLast v))=
        (if s.info.curr=[] ∨ s.dxUpdate=true then refill cfg seed d s else .ok s).map
          (Listing.setLast v) := by
      by_cases hr : s.info.curr=[] ∨ s.dxUpdate=true
      · have hr' : (s.setLast v).info.curr=[] ∨ (s.setLast v).dxUpdate=true := hr
        rw [if_pos hr,if_pos hr',refill_setLast]
      · have hr' : ¬((s.setLast v).info.curr=[] ∨ (s.setLast v).dxUpdate=true) := hr
        rw [if_neg hr,if_neg hr']
        rfl
    unfold dxLoop
    rw [hhead]
    cases (if s.info.curr=[] ∨ s.dxUpdate=true then refill cfg seed d s else .ok s) with
    | error x => rfl
    | ok t =>
      obtain ⟨⟨root,curr,extra,freed,lastPos,currHash,currMinorHash,nextHash⟩,fpos,upd,resid,out⟩ := t
      cases curr with
      | nil => rfl
      | cons b bs =>
        have hfill : callFilldir past (b.first.hash/2) b.chain _=_ :=
          callFilldir_setLast v (b.first.hash/2) b.chain
            ⟨⟨root,b::bs,extra,freed,lastPos,b.first.hash,b.first.minorHash,nextHash⟩,fpos,upd,
              resid,out⟩
        dsimp only [Listing.setLast,Except.map] at hfill ⊢
        rw [hfill]
        obtain ⟨u,full⟩ := callFilldir past (b.first.hash/2) b.chain
          ⟨⟨root,b::bs,extra,freed,lastPos,b.first.hash,b.first.minorHash,nextHash⟩,fpos,upd,resid,
            out⟩
        cases full with
        | true => rfl
        | false =>
          dsimp only
          by_cases hbs : bs=[]
          · rw [if_pos hbs,if_pos hbs]
            by_cases hn : u.info.nextHash=4294967295
            · rw [if_pos hn,if_pos hn]
            · rw [if_neg hn,if_neg hn]
              exact ih { u with info := { u.info with
                curr := bs, currHash := u.info.nextHash, currMinorHash := 0 } }
          · rw [if_neg hbs,if_neg hbs]
            exact ih { u with info := { u.info with curr := bs } }

theorem dxLoop_restart {s t : Listing} (fuel : ℕ) (hs : s.info.curr=[]) (ht : t.info.curr=[])
    (h : refill cfg seed d s=refill cfg seed d t) :
    dxLoop cfg seed past d (fuel+1) s=dxLoop cfg seed past d (fuel+1) t := by
  unfold dxLoop
  rw [if_pos (.inl hs),if_pos (.inl ht),h]

theorem Cursor.Fresh.dxReaddir_eq {c1 c2 : Cursor} (h1 : c1.Fresh) (h2 : c2.Fresh) (z : ℕ) :
    dxReaddir cfg seed past d c1 z=dxReaddir cfg seed past d c2 z := by
  obtain ⟨last1,next1,hr1⟩ := h1.rewind
  obtain ⟨last2,next2,hr2⟩ := h2.rewind
  rw [dxReaddir_of_nil hr1 rfl,dxReaddir_of_nil hr2 rfl]
  have hloop : dxLoop cfg seed past d (d.rounds cfg)
        (Listing.begun ⟨⟨[],[],[],false,last1,0,0,next1⟩,0,c1.dxUpdate,z,[]⟩)=
      (dxLoop cfg seed past d (d.rounds cfg)
        (Listing.begun ⟨⟨[],[],[],false,last2,0,0,next2⟩,0,c2.dxUpdate,z,[]⟩)).map
          (Listing.setLast last1) := by
    rw [← dxLoop_setLast]
    exact dxLoop_restart (d.size cfg+2) rfl rfl rfl
  rw [hloop]
  cases dxLoop cfg seed past d (d.rounds cfg)
    (Listing.begun ⟨⟨[],[],[],false,last2,0,0,next2⟩,0,c2.dxUpdate,z,[]⟩) with
  | error x => rfl
  | ok s => rfl

end Starts

section Runs

variable {s s' t : Readers} {x : Call} {r : Bool}

variable (c r) in
/-- What the reader `r` has in a run beside what it has when it is alone. -/
structure Alike (s t : Readers) : Prop where
  offset : t.offset r=s.offset r
  given : t.given r=s.given r
  here : s.last=some r → t.cursor=s.cursor
  first : s.given r=[] → t.cursor=c ∧ s.offset r=0
  untouched : s.last=none → s.cursor=c

theorem readdirIndexed_past (c : Cursor) {off : ℕ} (z : ℕ) (h : d.size cfg ≤ off) :
    readdirIndexed cfg seed past d c off z=.ok (c,⟨[],off,true,false⟩) := by
  unfold readdirIndexed
  rw [if_pos h]

structure Stepped (cfg : Config) (seed : HashBuf) (past : UInt8) (d : DxDir) (x : Call)
    (s s' : Readers) (y : Reading) : Prop where
  call : readdirIndexed cfg seed past d s.cursor (s.offset x.reader) x.room=.ok (s'.cursor,y)
  offset : s'.offset=update s.offset x.reader y.offset
  given : s'.given=update s.given x.reader (s.given x.reader++[y])
  last : s'.last=if d.size cfg ≤ s.offset x.reader then s.last else some x.reader

theorem readers_next (h : (readers cfg seed past d c).next x s=some s') :
    ∃ y,Stepped cfg seed past d x s s' y := by
  dsimp only [readers] at h
  split at h
  · cases h
  · next c' y he =>
    obtain rfl := Option.some.inj h
    exact ⟨y,he,rfl,rfl,rfl⟩

theorem readers_call {c' : Cursor} {y : Reading}
    (h : readdirIndexed cfg seed past d s.cursor (s.offset x.reader) x.room=.ok (c',y)) :
    ∃ s',(readers cfg seed past d c).next x s=some s' ∧ s'.cursor=c' ∧
      Stepped cfg seed past d x s s' y := by
  dsimp only [readers]
  rw [h]
  exact ⟨_,rfl,rfl,h,rfl,rfl,rfl⟩

theorem Stepped.behind {y : Reading} (h : Stepped cfg seed past d x s s' y)
    (hpast : d.size cfg ≤ s.offset x.reader) :
    s'.cursor=s.cursor ∧ s'.last=s.last ∧ y=⟨[],s.offset x.reader,true,false⟩ := by
  have hcall := h.call
  rw [readdirIndexed_past _ _ hpast] at hcall
  injection hcall with hpair
  injection hpair with h1 h2
  exact ⟨h1.symm,h.last.trans (if_pos hpast),h2.symm⟩

theorem Alike.other (h : Alike c r s t) (hx : x.reader≠r)
    (hn : (readers cfg seed past d c).next x s=some s') : Alike c r s' t := by
  obtain ⟨y,hs⟩ := readers_next hn
  have hoffset : s'.offset r=s.offset r := by
    rw [hs.offset]
    exact update_of_ne (Ne.symm hx) _ _
  have hgiven : s'.given r=s.given r := by
    rw [hs.given]
    exact update_of_ne (Ne.symm hx) _ _
  have hfirst : s'.given r=[] → t.cursor=c ∧ s'.offset r=0 := by
    rw [hgiven,hoffset]
    exact h.first
  have hstays : s'.last=some x.reader ∨ s'.cursor=s.cursor ∧ s'.last=s.last := by
    by_cases hpast : d.size cfg ≤ s.offset x.reader
    · obtain ⟨h1,h2,-⟩ := hs.behind hpast
      exact .inr ⟨h1,h2⟩
    · exact .inl (hs.last.trans (if_neg hpast))
  refine ⟨h.offset.trans hoffset.symm,h.given.trans hgiven.symm,?_,hfirst,?_⟩
  · intro hlast
    rcases hstays with hmoved | ⟨h1,h2⟩
    · rw [hmoved] at hlast
      exact absurd (Option.some.inj hlast) hx
    · rw [h1]
      exact h.here (h2 ▸ hlast)
  · intro hlast
    rcases hstays with hmoved | ⟨h1,h2⟩
    · rw [hmoved] at hlast
      cases hlast
    · rw [h1]
      exact h.untouched (h2 ▸ hlast)

theorem Alike.answer (h : Alike c x.reader s t) (hok : Apart cfg d c s x)
    (hpast : ¬d.size cfg ≤ s.offset x.reader) (z : ℕ) :
    readdirIndexed cfg seed past d t.cursor (s.offset x.reader) z=
      readdirIndexed cfg seed past d s.cursor (s.offset x.reader) z := by
  rcases hok with h' | hlast | ⟨hnone,hlast | ⟨hs,hc⟩⟩
  · exact absurd h' hpast
  · rw [h.here hlast]
  · rw [(h.first hnone).1,← h.untouched hlast]
  · rw [(h.first hnone).2] at hpast ⊢
    rw [(h.first hnone).1]
    unfold readdirIndexed
    rw [if_neg hpast,if_neg (fun hp => hp.1 rfl),if_neg hpast,if_neg (fun hp => hp.1 rfl),
      hc.dxReaddir_eq hs]

theorem Alike.own (h : Alike c x.reader s t) (hok : Apart cfg d c s x)
    (hn : (readers cfg seed past d c).next x s=some s') :
    ∃ t',(readers cfg seed past d c).next x t=some t' ∧ Alike c x.reader s' t' := by
  obtain ⟨y,hs⟩ := readers_next hn
  have hgiven : s'.given x.reader≠[] := by
    rw [hs.given,update_self]
    exact List.append_ne_nil_of_right_ne_nil _ (List.cons_ne_nil _ _)
  -- Behind the end both calls leave the cursor that they find; otherwise they leave the same one.
  by_cases hpast : d.size cfg ≤ s.offset x.reader
  · obtain ⟨h1,h2,rfl⟩ := hs.behind hpast
    obtain ⟨t',ht,hc,ht'⟩ := readers_call (s := t) (x := x) (c := c)
      ((readdirIndexed_past t.cursor x.room (h.offset ▸ hpast)).trans (by rw [h.offset]))
    refine ⟨t',ht,?_,?_,?_,fun he => absurd he hgiven,?_⟩
    · rw [ht'.offset,hs.offset,update_self,update_self]
    · rw [ht'.given,hs.given,update_self,update_self,h.given]
    · rw [hc,h1,h2]
      exact h.here
    · rw [h1,h2]
      exact h.untouched
  · obtain ⟨t',ht,hc,ht'⟩ := readers_call (s := t) (x := x) (c := c)
      (h.offset ▸ (h.answer hok hpast x.room).trans hs.call)
    refine ⟨t',ht,?_,?_,fun _ => hc,fun he => absurd he hgiven,?_⟩
    · rw [ht'.offset,hs.offset,update_self,update_self]
    · rw [ht'.given,hs.given,update_self,update_self,h.given]
    · rw [hs.last,if_neg hpast]
      intro he
      cases he

theorem Alike.run {xs : List Call} (h : Alike c r s t)
    (hok : (readers cfg seed past d c).Meets (Apart cfg d c) xs s)
    (hrun : (readers cfg seed past d c).exec xs s=some s') :
    ∃ t',(readers cfg seed past d c).exec (xs.filter (fun x => x.reader=r)) t=some t' ∧
      Alike c r s' t' := by
  induction xs generalizing s t with
  | nil =>
    obtain rfl := Option.some.inj hrun
    exact ⟨t,rfl,h⟩
  | cons x xs ih =>
    obtain ⟨u,hu,hrun⟩ := Option.bind_eq_some_iff.mp hrun
    obtain ⟨hx,hxs⟩ := hok
    by_cases hr : x.reader=r
    · subst hr
      obtain ⟨t',ht,ha⟩ := h.own hx hu
      obtain ⟨t2,ht2,ha2⟩ := ih ha (hxs u hu) hrun
      refine ⟨t2,?_,ha2⟩
      rw [List.filter_cons_of_pos (by simp),Machine.exec,ht]
      exact ht2
    · rw [List.filter_cons_of_neg (by simpa using hr)]
      exact ih (h.other hr hu) (hxs u hu) hrun

end Runs

/-- In a run whose calls keep the two readers apart each is given what it is given alone. -/
theorem readers_apart (cfg : Config) (seed : HashBuf) (past : UInt8) (d : DxDir) (c : Cursor)
    (xs : List Call) (s : Readers)
    (hok : (readers cfg seed past d c).Meets (Apart cfg d c) xs (Readers.start c))
    (hrun : (readers cfg seed past d c).exec xs (Readers.start c)=some s) (r : Bool) :
    ∃ t,(readers cfg seed past d c).exec (xs.filter (fun x => x.reader=r)) (Readers.start c)=some t ∧
      t.given r=s.given r := by
  have h : Alike c r (Readers.start c) (Readers.start c) :=
    ⟨rfl,rfl,fun _ => rfl,fun _ => ⟨rfl,rfl⟩,fun _ => rfl⟩
  obtain ⟨t,ht,ha⟩ := h.run hok hrun
  exact ⟨t,ht,ha.given⟩

section Samples

deriving instance Decidable for Cursor.Fresh

instance (cfg : Config) (d : DxDir) (c : Cursor) (s : Readers) (x : Call) :
    Decidable (Apart cfg d c s x) :=
  inferInstanceAs (Decidable (d.size cfg ≤ s.offset x.reader ∨ s.last=some x.reader ∨
    s.given x.reader=[] ∧ (s.last=none ∨ s.cursor.Fresh ∧ c.Fresh)))

def twoReaders : Machine Readers Call :=
  readers smallConfig ⟨0,0,0,0⟩ 0 (oneLeaf twoRecords) newCursor

def inTurn : List Call := [⟨true,24⟩,⟨true,264⟩,⟨false,24⟩,⟨false,264⟩]

theorem readers_apart_inTurn :
    ∃ s,twoReaders.exec inTurn (Readers.start newCursor)=some s ∧
      ∃ t,twoReaders.exec (inTurn.filter (fun x => x.reader=false)) (Readers.start newCursor)=some t ∧
        t.given false=s.given false := by
  have hsome : (twoReaders.exec inTurn (Readers.start newCursor)).isSome := by decide +kernel
  obtain ⟨s,hs⟩ := Option.isSome_iff_exists.mp hsome
  exact ⟨s,hs,readers_apart smallConfig ⟨0,0,0,0⟩ 0 (oneLeaf twoRecords) newCursor inTurn s
    (by decide +kernel) hs false⟩

def Readers.names (s : Readers) (r : Bool) : List (List (List UInt8)) :=
  (s.given r).map (fun y => y.out.map Dirent.name)

def crossed : List Call := [⟨true,24⟩,⟨false,264⟩]

theorem crossed_differs :
    ¬∀ xs s,twoReaders.exec xs (Readers.start newCursor)=some s → ∀ r,
      ∃ t,twoReaders.exec (xs.filter (fun x => x.reader=r)) (Readers.start newCursor)=some t ∧
        t.given r=s.given r := by
  intro h
  have hboth : (twoReaders.exec crossed (Readers.start newCursor)).map (fun s => s.names false)=
      some [[[97],[120]]] := by decide +kernel
  have halone : (twoReaders.exec (crossed.filter (fun x => x.reader=false))
      (Readers.start newCursor)).map (fun s => s.names false)=
      some [[[46],[46,46],[97],[120]]] := by decide +kernel
  obtain ⟨s,hs,hnames⟩ := Option.map_eq_some_iff.mp hboth
  obtain ⟨t,ht,hgiven⟩ := h crossed s hs false
  rw [ht,Option.map_some,Readers.names,hgiven] at halone
  rw [Readers.names] at hnames
  rw [hnames] at halone
  revert halone
  decide

end Samples

end Ext2fsX.Htree
