import Ext2fsX.Directory.Modify

namespace Ext2fsX.Directory

open Framework Record

variable {cfg : Config}

def Dir.records (d : Dir) : List Record := walk recLen (readRecord d.data) d.size d.size 0

def entriesOf (rs : List Record) : List (List UInt8 × ℕ) :=
  (rs.filter Record.live).map (fun r => (r.name,r.inode))

def Dir.entries (d : Dir) : List (List UInt8 × ℕ) := entriesOf d.records

/-- The bytes of `d` are the records `rs`, none of which crosses a block. -/
structure Layout (cfg : Config) (d : Dir) (rs : List Record) : Prop where
  tiles : Tiles recLen (readRecord d.data) (Record.Ok cfg) 0 rs
  size_eq : total recLen rs=d.size
  blocks : cfg.blocksize ∣ d.size

/-- Every block is tiled by well-formed records, and no name occurs twice. -/
structure WellFormed (cfg : Config) (d : Dir) : Prop where
  layout : Layout cfg d d.records
  names : (d.entries.map Prod.fst).Nodup

variable {rs : List Record} {o : ℕ}

theorem Layout.records {d : Dir} (h : Layout cfg d rs) : d.records=rs := by
  have hpos (o : ℕ) (r : Record) (hr : Record.Ok cfg o r) : 0 < r.recLen := hr.pos
  apply h.tiles.walk hpos
  · rw [h.size_eq,Nat.zero_add]
  · rw [← h.size_eq]
    exact h.tiles.length_le hpos

def Record.hit (name : List UInt8) (r : Record) : Bool := r.live && decide (r.name=name)

def Search.seen (cfg : Config) (s : Search) (r : Record) : Search :=
  { s with
    entryoffsetinblock := s.offset%cfg.blocksize
    slot := (if s.offset%cfg.blocksize=0 then s.slot.restart else s.slot).see s.offset r }

def Search.after (cfg : Config) (s : Search) (r : Record) : Search :=
  { s.seen cfg r with
    prevoff := s.offset
    offset := s.offset+r.recLen
    entryoffsetinblock := s.offset%cfg.blocksize+r.recLen
    enduseful := if r.live then s.offset+r.recLen else s.enduseful }

def searchList (cfg : Config) (bad : List ℕ) (name : List UInt8) : List Record → Search → Searched
  | [],s => .notfound s
  | r::rs,s =>
    if s.offset%cfg.blocksize=0 ∧ s.offset/cfg.blocksize∈bad then .unread s
    else if r.hit name then .found (s.seen cfg r)
    else searchList cfg bad name rs (s.after cfg r)

/-- At the head of the loop the offset in the block is right, except at the start of one. -/
def Search.InBlock (cfg : Config) (s : Search) : Prop :=
  s.offset%cfg.blocksize≠0 → s.entryoffsetinblock=s.offset%cfg.blocksize

variable {r : Record}

theorem dirbadentry_of_ok (h : Record.Ok cfg o r) : dirbadentry cfg r (o%cfg.blocksize)=false := by
  obtain ⟨h1,h2,h3,h4,h5,-⟩ := h
  unfold dirbadentry
  rw [if_neg (by omega),if_neg (by omega),if_neg (by omega),if_neg (by omega)]
  exact decide_eq_false (by omega)

variable {s : Search}

theorem enterBlock_eq (h : s.InBlock cfg) : s.enterBlock cfg={ s with
      entryoffsetinblock := s.offset%cfg.blocksize
      slot := if s.offset%cfg.blocksize=0 then s.slot.restart else s.slot } := by
  have he : (if s.offset%cfg.blocksize=0 then 0 else s.entryoffsetinblock)=
      s.offset%cfg.blocksize := by
    split
    · exact Eq.symm ‹_›
    · exact h ‹_›
  unfold Search.enterBlock
  simp [he]

theorem Record.Ok.touched_le (h : Record.Ok cfg o r) (name : List UInt8) (e : ℕ) : r.touched cfg name e ≤ r.recLen := by
  have hfits := h.fits
  have hb := dirRecLen_bounds r.name.length
  unfold Record.touched
  split_ifs with _ _ _ hname
  · omega
  · omega
  · omega
  · have hlen := of_decide_eq_true (Bool.and_eq_true_iff.mp hname).2
    omega
  · omega
  · omega

variable {name : List UInt8} {m : Bytes}

theorem scan_of_inside (h : s.InBlock cfg) (hin : s.offset%cfg.blocksize+
      (readRecord m s.offset).touched cfg name (s.offset%cfg.blocksize) ≤ cfg.blocksize)
    (hm : (readRecord m s.offset).mangled cfg (s.offset%cfg.blocksize)=false) :
    (s.enterBlock cfg).scan cfg m name=
      if (readRecord m s.offset).hit name then .found (s.seen cfg (readRecord m s.offset))
      else .next (s.after cfg (readRecord m s.offset)) := by
  rw [enterBlock_eq h]
  unfold Search.scan Search.after Search.seen Record.hit
  dsimp only
  rw [if_neg (by omega),hm,if_neg Bool.false_ne_true]

theorem scan_of_ok (h : s.InBlock cfg) (hr : Record.Ok cfg s.offset (readRecord m s.offset)) :
    (s.enterBlock cfg).scan cfg m name=
      if (readRecord m s.offset).hit name then .found (s.seen cfg (readRecord m s.offset))
      else .next (s.after cfg (readRecord m s.offset)) := by
  have hblock := hr.block
  have htouch := hr.touched_le name (s.offset%cfg.blocksize)
  have hpos : (readRecord m s.offset).recLen≠0 := Nat.ne_of_gt hr.pos
  apply scan_of_inside h (by omega)
  unfold Record.mangled
  rw [dirbadentry_of_ok hr,decide_eq_false hpos,Bool.and_false,Bool.or_false]

theorem Record.Ok.mod_add (h : Record.Ok cfg o r) : (o+r.recLen)%cfg.blocksize=0 ∨
      (o+r.recLen)%cfg.blocksize=o%cfg.blocksize+r.recLen := by
  have hle := h.block
  rw [Nat.add_mod]
  by_cases he : o%cfg.blocksize+r.recLen=cfg.blocksize
  · left
    rw [← Nat.add_mod,← Nat.mod_add_mod,he,Nat.mod_self]
  · right
    rw [← Nat.add_mod,← Nat.mod_add_mod]
    exact Nat.mod_eq_of_lt (by omega)

theorem Search.after_inBlock (h : Record.Ok cfg s.offset r) : (s.after cfg r).InBlock cfg := by
  intro hne
  exact (h.mod_add.resolve_left hne).symm

theorem searchloop_eq {bad : List ℕ} {endsearch fuel : ℕ}
    (h : Tiles recLen (readRecord m) (Record.Ok cfg) s.offset rs) (hin : s.InBlock cfg)
    (he : s.offset+total recLen rs=endsearch) (hend : endsearch<2147483648)
    (hf : rs.length≤fuel) :
    searchloop cfg m bad name endsearch fuel s=searchList cfg bad name rs s := by
  induction rs generalizing s fuel with
  | nil =>
    have hlt : ¬s.offset<endsearch := by simp at he; omega
    cases fuel with
    | zero => rfl
    | succ fuel => simp [searchloop,searchList,hlt]
  | cons r rs ih =>
    obtain ⟨h1,h2,h3⟩ := h
    rw [total_cons] at he
    have hlt : s.offset<endsearch := by
      have := h2.pos
      omega
    cases fuel with
    | zero => simp at hf
    | succ fuel =>
      simp only [searchloop,searchList,hlt,if_true]
      rw [scan_of_ok hin (h1 ▸ h2),h1]
      by_cases hu : s.offset%cfg.blocksize=0 ∧ s.offset/cfg.blocksize∈bad
      · simp [hu]
      rw [if_neg hu,if_neg hu]
      by_cases hr : r.hit name=true
      · simp [hr]
      simp only [hr]
      have hle : ¬2147483648 ≤ (s.after cfg r).offset := by
        simp only [Search.after]
        omega
      simp only [Bool.false_eq_true,if_false,if_neg hle]
      apply ih
      · exact h3
      · exact Search.after_inBlock h2
      · simp only [Search.after]
        omega
      · simpa using hf

/-- The records `run` of `rs` lie in one block and together can give `need` bytes away. -/
structure SlotAt (cfg : Config) (rs : List Record) (need offset size : ℕ)
    (before run behind : List Record) : Prop where
  split : rs=before++run++behind
  start : total recLen before=offset
  length : total recLen run=size
  room : need≤total Record.free run
  block : offset%cfg.blocksize+size ≤ cfg.blocksize
  ne_nil : run≠[]

theorem SlotAt.append {before run behind : List Record} {need offset size : ℕ}
    (h : SlotAt cfg rs need offset size before run behind) (qs : List Record) :
    SlotAt cfg (rs++qs) need offset size before run (behind++qs) :=
  { h with split := by rw [h.split]; simp }

def Counting (cfg : Config) (pre : List Record) (ss : SearchSlot) : Prop :=
  (ss.offset=none ∧ ss.freespace=0) ∨ ∃ before run,pre=before++run ∧ run≠[] ∧
    ss.offset=some (total recLen before) ∧ ss.freespace=total Record.free run ∧
    total recLen before%cfg.blocksize+total recLen run=
      total recLen pre%cfg.blocksize

structure SlotInv (cfg : Config) (need : ℕ) (pre : List Record) (ss : SearchSlot) : Prop where
  needed : ss.needed=need
  slot : ss.status≠.none → ∃ o before run behind,ss.offset=some o ∧
    SlotAt cfg pre need o ss.size before run behind
  counting : ss.status=.none → total recLen pre%cfg.blocksize=0 ∨ Counting cfg pre ss

variable {pre : List Record} {ss : SearchSlot}

theorem Counting.append (h : Counting cfg pre ss) (hr : Record.Ok cfg (total recLen pre) r)
    (hfree : r.free=0) :
    total recLen (pre++[r])%cfg.blocksize=0 ∨ Counting cfg (pre++[r]) ss := by
  rcases h with h | ⟨before,run,rfl,hne,h1,h2,h3⟩
  · exact .inr (.inl h)
  have hm := hr.mod_add
  simp only [total_append,total_cons,total_nil,Nat.add_zero] at hm h3 ⊢
  rcases hm with hm | hm
  · exact .inl (by rw [← hm])
  · refine .inr (.inr ⟨before,run++[r],by simp,by simp,h1,?_,?_⟩)
    · simp [h2,hfree]
    · simp only [total_append,total_cons,total_nil,Nat.add_zero]
      omega

theorem Counting.extend (h : Counting cfg pre ss) (r : Record) : ∃ before run,pre++[r]=before++run ∧ run≠[] ∧
      ss.offset.getD (total recLen pre)=total recLen before ∧
      ss.freespace+r.free=total Record.free run ∧
      total recLen before%cfg.blocksize+total recLen run=
        total recLen pre%cfg.blocksize+r.recLen := by
  rcases h with ⟨h1,h2⟩ | ⟨before,run,rfl,hne,h1,h2,h3⟩
  · exact ⟨pre,[r],rfl,by simp,by simp [h1],by simp [h2],by simp⟩
  · refine ⟨before,run++[r],by simp,by simp,by simp [h1],by simp [h2],?_⟩
    simp only [total_append,total_cons,total_nil,Nat.add_zero] at h3 ⊢
    omega

variable {need : ℕ}

theorem SlotInv.restart (h : SlotInv cfg need pre ss) :
    let ss' := if total recLen pre%cfg.blocksize=0 then ss.restart else ss
    ss'.needed=need ∧ (ss'.status≠.none → ∃ o before run behind,ss'.offset=some o ∧
      SlotAt cfg pre need o ss'.size before run behind) ∧
    (ss'.status=.none → Counting cfg pre ss') := by
  intro ss'
  by_cases hb : total recLen pre%cfg.blocksize=0
  · have hs : ss'=ss.restart := if_pos hb
    by_cases hn : ss.status=.none
    · have hr : ss'={ ss with offset := none, freespace := 0 } := hs.trans (if_pos hn)
      rw [hr]
      exact ⟨h.needed,fun hne => absurd hn hne,fun _ => .inl ⟨rfl,rfl⟩⟩
    · have hr : ss'=ss := hs.trans (if_neg hn)
      rw [hr]
      exact ⟨h.needed,h.slot,fun he => absurd he hn⟩
  · have hs : ss'=ss := if_neg hb
    rw [hs]
    exact ⟨h.needed,h.slot,fun he => (h.counting he).resolve_left hb⟩

theorem SlotInv.see (h : SlotInv cfg need pre ss) (hr : Record.Ok cfg (total recLen pre) r) :
    SlotInv cfg need (pre++[r]) ((if total recLen pre%cfg.blocksize=0 then ss.restart else ss).see
        (total recLen pre) r) := by
  obtain ⟨h1,h2,h3⟩ := h.restart
  generalize (if total recLen pre%cfg.blocksize=0 then ss.restart else ss)=ss' at *
  have keep (hne : ss'.status≠.none) : ∃ o before run behind,ss'.offset=some o ∧
      SlotAt cfg (pre++[r]) need o ss'.size before run behind := by
    obtain ⟨o,before,run,behind,ho,hs⟩ := h2 hne
    exact ⟨o,before,run,behind++[r],ho,hs.append [r]⟩
  have hmod := hr.block
  unfold SearchSlot.see
  by_cases hf : ss'.status=.found
  · rw [if_pos hf]
    exact ⟨h1,keep,fun he => by rw [hf] at he; cases he⟩
  rw [if_neg hf]
  change SlotInv cfg need (pre++[r]) (if r.free=0 then ss' else _)
  by_cases hz : r.free=0
  · rw [if_pos hz]
    exact ⟨h1,keep,fun he => (h3 he).append hr hz⟩
  rw [if_neg hz]
  change SlotInv cfg need (pre++[r]) (if ss'.needed ≤ r.free then _ else _)
  by_cases hn : ss'.needed ≤ r.free
  · rw [if_pos hn]
    refine ⟨h1,fun _ => ⟨_,pre,[r],[],rfl,?_⟩,fun he => by cases he⟩
    exact ⟨by simp,rfl,by simp,by rw [← h1]; simpa using hn,by simpa using hmod,by simp⟩
  rw [if_neg hn]
  by_cases hnone : ss'.status=.none
  · rw [if_pos hnone]
    obtain ⟨before,run,he,hne,ho,hfree,hblock⟩ := (h3 hnone).extend r
    have htotal := congrArg (total recLen) he
    simp only [total_append,total_cons,total_nil,Nat.add_zero] at htotal
    change SlotInv cfg need (pre++[r]) (if ss'.needed ≤ ss'.freespace+r.free then _ else _)
    by_cases hc : ss'.needed ≤ ss'.freespace+r.free
    · rw [if_pos hc]
      refine ⟨h1,fun _ => ⟨_,before,run,[],rfl,?_⟩,fun he => by cases he⟩
      rw [ho]
      exact ⟨by rw [he,List.append_nil],rfl,by dsimp only; omega,by omega,by dsimp only; omega,hne⟩
    · rw [if_neg hc]
      refine ⟨h1,fun he => absurd hnone he,fun _ => ?_⟩
      have hm := hr.mod_add
      simp only [total_append,total_cons,total_nil,Nat.add_zero]
      refine hm.imp_right (fun hm => .inr ⟨before,run,he,hne,?_,hfree,?_⟩)
      · rw [← ho]
      · simp only [total_append,total_cons,total_nil,Nat.add_zero]
        omega
  · rw [if_neg hnone]
    exact ⟨h1,keep,fun he => absurd he hnone⟩

/-- What a search from the start of the directory knows after the records `pre`. -/
structure SearchInv (cfg : Config) (want : Prop) (need : ℕ) (pre : List Record) (s : Search) :
    Prop where
  offset : s.offset=total recLen pre
  inBlock : s.InBlock cfg
  prevoff : s.prevoff=total recLen pre.dropLast
  useful : ∃ xs ys,pre=xs++ys ∧ total recLen xs=s.enduseful ∧ ∀ r∈ys,r.live=false
  slot : want → SlotInv cfg need pre s.slot

theorem SearchInv.after {want : Prop} (h : SearchInv cfg want need pre s)
    (hr : Record.Ok cfg s.offset r) :
    SearchInv cfg want need (pre++[r]) (s.after cfg r) where
  offset := by simp [Search.after,h.offset]
  inBlock := Search.after_inBlock hr
  prevoff := by simp [Search.after,h.offset]
  useful := by
    by_cases hl : r.live=true
    · exact ⟨pre++[r],[],by simp,by simp [Search.after,hl,h.offset],by simp⟩
    obtain ⟨xs,ys,rfl,h1,h2⟩ := h.useful
    refine ⟨xs,ys++[r],by simp,by simp [Search.after,hl,h1],?_⟩
    intro q hq
    rcases List.mem_append.mp hq with hq | hq
    · exact h2 q hq
    · rw [List.mem_singleton.mp hq]
      simpa using hl
  slot hw := by
    have hs := (h.slot hw).see (h.offset ▸ hr)
    rw [← h.offset] at hs
    exact hs

/-- How a search from the start of the directory ends. -/
def SearchEnds (cfg : Config) (want : Prop) (need : ℕ) (name : List UInt8) (rs : List Record) :
    Searched → Prop
  | .found s => ∃ pre r post,rs=pre++r::post ∧ r.hit name=true ∧ (∀ q∈pre,q.hit name=false) ∧
      s.offset=total recLen pre ∧ s.prevoff=total recLen pre.dropLast ∧
      s.entryoffsetinblock=s.offset%cfg.blocksize
  | .notfound s => (∀ r∈rs,r.hit name=false) ∧ SearchInv cfg want need rs s
  | .unread _ => True
  | .stop _ => False

theorem searchList_ends {want : Prop} (bad : List ℕ) (name : List UInt8)
    {pre : List Record} (h : SearchInv cfg want need pre s)
    (ht : Tiles recLen (readRecord m) (Record.Ok cfg) s.offset rs)
    (hpre : ∀ q∈pre,q.hit name=false) :
    SearchEnds cfg want need name (pre++rs) (searchList cfg bad name rs s) := by
  induction rs generalizing pre s with
  | nil =>
    simp only [List.append_nil,searchList]
    exact ⟨hpre,h⟩
  | cons r rs ih =>
    obtain ⟨h1,h2,h3⟩ := ht
    simp only [searchList]
    split
    · trivial
    split
    · rename_i hr
      exact ⟨pre,r,rs,rfl,hr,hpre,h.offset,h.prevoff,rfl⟩
    rename_i hr
    have hpre' (q : Record) (hq : q∈pre++[r]) : q.hit name=false := by
      rcases List.mem_append.mp hq with hq | hq
      · exact hpre q hq
      · rw [List.mem_singleton.mp hq]
        simpa using hr
    have := ih (h.after h2) h3 hpre'
    rwa [List.append_assoc] at this

end Ext2fsX.Directory
