import Ext2fsX.Directory.Search
import Mathlib.Data.List.Induction

namespace Ext2fsX.Directory

open Framework Record

variable (cfg : Config) (m : Bytes) (name : List UInt8)

def Record.hasLength (r : Record) : Bool := decide (r.recLen≠0)

namespace Search

/-- Behind a record that is not the right one. `useful` are the records after which
`enduseful` moves. -/
def pass (useful : Record → Bool) (s : Search) (ep : Record) : Search :=
  { s with
    slot := s.slot.see s.offset ep
    prevoff := s.offset
    offset := s.offset+ep.recLen
    entryoffsetinblock := s.entryoffsetinblock+ep.recLen
    enduseful := if useful ep then s.offset+ep.recLen else s.enduseful }

variable (s : Search)

def hitAt (ep : Record) : Search := { s with slot := s.slot.see s.offset ep }

def skip : Search :=
  let i := cfg.blocksize-s.entryoffsetinblock%cfg.blocksize
  { s with offset := s.offset+i, entryoffsetinblock := s.entryoffsetinblock+i }

def restart : Search :=
  { s with slot := if s.entryoffsetinblock%cfg.blocksize=0 then s.slot.restart else s.slot }

/-- One pass of the search loop of `ext2_lookupi`, and whether it goes to `found`. The mount is
read-only: `ext2_dirbad` only prints. -/
def inlinedPass : Search × Bool :=
  let s := s.restart cfg
  let ep := readRecord m s.entryoffsetinblock
  if ep.mangled cfg s.entryoffsetinblock then (s.skip cfg,false)
  else if ep.hit name then (s.hitAt ep,true)
  else (s.pass Record.live ep,false)

end Search

/-- The passes of that loop that begin in the block. -/
def inlinedLoop : ℕ → Search → Option (Search × Bool)
  | 0,_ => none
  | n+1,s =>
    if s.entryoffsetinblock < cfg.blocksize then
      let r := s.inlinedPass cfg m name
      if r.2 then some r else inlinedLoop n r.1
    else some (s,false)

/-- With the value of `*foundp` before the call. `ep` stays where it is when a mangled record is
skipped. -/
def searchDirblock (foundp : Bool) : ℕ → ℕ → Search → Option (Search × Bool)
  | 0,_,_ => none
  | n+1,ep,s =>
    if ep < cfg.blocksize then
      let r := readRecord m ep
      if r.mangled cfg s.entryoffsetinblock then searchDirblock foundp n ep (s.skip cfg)
      else if r.hit name then some (s.hitAt r,true)
      else
        let s := s.pass Record.hasLength r
        searchDirblock foundp n s.entryoffsetinblock s
    else some (s,foundp)

/-- The call returns, with the variables the search loop leaves the block with. -/
def SameSearch (foundp : Bool) (s : Search) : Prop :=
  ∃ r,(∃ n,searchDirblock cfg m name foundp n s.entryoffsetinblock s=some r) ∧
    ∃ n,inlinedLoop cfg m name n s=some r

/-- From `o` on the records `rs` are passed, up to the right one or to the end of the block. -/
inductive Crosses : ℕ → List Record → Bool → Prop
  | leave (o : ℕ) (h : cfg.blocksize ≤ o) : Crosses o [] false
  | hit (o : ℕ) (h : o < cfg.blocksize) (hm : (readRecord m o).mangled cfg o=false)
      (hh : (readRecord m o).hit name=true) : Crosses o [] true
  | pass (o : ℕ) (rs : List Record) (b : Bool) (h : o < cfg.blocksize)
      (hm : (readRecord m o).mangled cfg o=false) (hh : (readRecord m o).hit name=false)
      (ht : Crosses (o+(readRecord m o).recLen) rs b) : Crosses o (readRecord m o::rs) b

/-- No record before the right one is mangled, the last one passed is live, and `*foundp` is or gets
set. -/
def Alike (foundp : Bool) (o : ℕ) : Prop :=
  ∃ rs b,Crosses cfg m name o rs b ∧ (∀ r∈rs.getLast?,r.live=true) ∧ (foundp=true → b=true)

variable {cfg m name}

theorem Record.mangled_mono {r : Record} {e e' : ℕ} (h : r.mangled cfg e=true) (he : e≤e') :
    r.mangled cfg e'=true := by
  unfold mangled dirbadentry at *
  grind

theorem Record.recLen_pos {r : Record} {e : ℕ} (h : r.mangled cfg e=false) : 0 < r.recLen := by
  simp only [mangled,Bool.or_eq_false_iff,decide_eq_false_iff_not] at h
  omega

variable {s : Search}

/-- On a read-only mount a pass is the one of `ext2_lookupi`, unless that reads past the block. -/
theorem Search.scan_inlinedPass {d : Bytes} {k : ℕ} (hro : cfg.rdonly=true)
    (ho : s.offset=k*cfg.blocksize+s.entryoffsetinblock)
    (hlt : s.entryoffsetinblock < cfg.blocksize) :
    (s.enterBlock cfg).scan cfg d name=.stop .fault ∨ (s.enterBlock cfg).scan cfg d name=
      if (s.inlinedPass cfg (fun i => d (k*cfg.blocksize+i)) name).2
      then .found (s.inlinedPass cfg (fun i => d (k*cfg.blocksize+i)) name).1
      else .next (s.inlinedPass cfg (fun i => d (k*cfg.blocksize+i)) name).1 := by
  have hmod : s.offset%cfg.blocksize=s.entryoffsetinblock := by
    rw [ho,Nat.mul_add_mod_self_right,Nat.mod_eq_of_lt hlt]
  have hread : readRecord (fun i => d (k*cfg.blocksize+i)) s.entryoffsetinblock=
      readRecord d s.offset := by
    simp [readRecord,Bytes.le32,Bytes.le16,Bytes.slice,ho,Nat.add_assoc]
  rw [enterBlock_eq (fun _ => hmod.symm),hmod]
  unfold scan inlinedPass restart pass hitAt skip Record.hit
  simp only [hro,hread,if_true,Nat.mod_eq_of_lt hlt]
  generalize readRecord d s.offset=ep
  by_cases hf : cfg.blocksize < s.entryoffsetinblock+ep.touched cfg name s.entryoffsetinblock
  · exact .inl (if_pos hf)
  · right
    rw [if_neg hf]
    cases ep.mangled cfg s.entryoffsetinblock <;> cases ep.live && decide (ep.name=name) <;> simp

variable {foundp : Bool}

theorem searchDirblock_mangled {n ep : ℕ} (hep : ep < cfg.blocksize)
    (h : (readRecord m ep).mangled cfg s.entryoffsetinblock=true) :
    searchDirblock cfg m name foundp n ep s=none := by
  induction n generalizing s with
  | zero => rfl
  | succ n ih =>
    simp only [searchDirblock,hep,h,if_true]
    apply ih
    exact Record.mangled_mono h (Nat.le_add_right ..)

theorem crosses_of_searchDirblock {n : ℕ} {r : Search × Bool}
    (h : searchDirblock cfg m name foundp n s.entryoffsetinblock s=some r) :
    ∃ rs b,Crosses cfg m name s.entryoffsetinblock rs b := by
  induction n generalizing s with
  | zero => simp [searchDirblock] at h
  | succ n ih =>
    by_cases hlt : s.entryoffsetinblock < cfg.blocksize
    · cases hm : (readRecord m s.entryoffsetinblock).mangled cfg s.entryoffsetinblock with
      | true => simp [searchDirblock_mangled hlt hm] at h
      | false =>
        cases hh : (readRecord m s.entryoffsetinblock).hit name with
        | true => exact ⟨[],true,.hit _ hlt hm hh⟩
        | false =>
          simp only [searchDirblock,hlt,hm,hh,if_true,Bool.false_eq_true,if_false] at h
          obtain ⟨rs,b,hp⟩ := ih h
          exact ⟨_,b,.pass _ rs b hlt hm hh hp⟩
    · exact ⟨[],false,.leave _ (Nat.le_of_not_lt hlt)⟩

namespace Search

variable (useful : Record → Bool)

def through (s : Search) (rs : List Record) : Search :=
  rs.foldl (pass useful) s

def ended (m : Bytes) (s : Search) (foundp b : Bool) : Search × Bool :=
  if b then (s.hitAt (readRecord m s.entryoffsetinblock),true) else (s,foundp)

@[simp] theorem through_nil (s : Search) : s.through useful []=s := rfl

@[simp] theorem through_cons (s : Search) (r : Record)
    (rs : List Record) : s.through useful (r::rs)=(s.pass useful r).through useful rs := rfl

end Search

theorem Crosses.searchDirblock {o : ℕ} {rs : List Record} {b : Bool}
    (h : Crosses cfg m name o rs b) (foundp : Bool) (n : ℕ) {s : Search}
    (hs : s.entryoffsetinblock=o) :
    searchDirblock cfg m name foundp n o s=if rs.length<n then
      some ((s.through Record.hasLength rs).ended m foundp b) else none := by
  induction h generalizing s n with
  | leave o h =>
    cases n <;> simp [Directory.searchDirblock,Search.ended,Nat.not_lt.mpr h]
  | hit o h hm hh =>
    subst hs
    cases n <;> simp [Directory.searchDirblock,Search.ended,h,hm,hh]
  | pass o rs b h hm hh ht ih =>
    subst hs
    cases n with
    | zero => rfl
    | succ n =>
      simp only [Directory.searchDirblock,h,hm,hh,if_true,if_false,Bool.false_eq_true,
        List.length_cons,Nat.add_lt_add_iff_right]
      exact ih n rfl

theorem Search.restart_of_pos (h : 0 < s.entryoffsetinblock)
    (hlt : s.entryoffsetinblock < cfg.blocksize) : s.restart cfg=s := by
  have hne : s.entryoffsetinblock%cfg.blocksize≠0 := by
    rw [Nat.mod_eq_of_lt hlt]
    omega
  simp [restart,hne]

theorem Crosses.inlinedLoop {o : ℕ} {rs : List Record} {b : Bool}
    (h : Crosses cfg m name o rs b) (n : ℕ) {s : Search} (hs : s.entryoffsetinblock=o) :
    inlinedLoop cfg m name n s=if rs.length<n then
      some (((if o < cfg.blocksize then s.restart cfg else s).through Record.live rs).ended m false b)
      else none := by
  have he : (s.restart cfg).entryoffsetinblock=s.entryoffsetinblock := rfl
  induction h generalizing s n with
  | leave o h =>
    cases n <;> simp [Directory.inlinedLoop,Search.ended,hs,Nat.not_lt.mpr h]
  | hit o h hm hh =>
    subst hs
    cases n <;> simp [Directory.inlinedLoop,Search.inlinedPass,Search.ended,he,h,hm,hh]
  | pass o rs b h hm hh ht ih =>
    subst hs
    cases n with
    | zero => rfl
    | succ n =>
      simp only [Directory.inlinedLoop,Search.inlinedPass,he,h,hm,hh,if_true,if_false,
        Bool.false_eq_true,List.length_cons,Nat.add_lt_add_iff_right,Search.through_cons]
      rw [ih n (s := (s.restart cfg).pass Record.live (readRecord m s.entryoffsetinblock)) rfl rfl]
      congr 3
      split
      · rw [Search.restart_of_pos (Nat.add_pos_right _ (Record.recLen_pos hm)) ‹_›]
      · rfl

namespace Search

variable {u v : Record → Bool} (s : Search) (rs : List Record)

theorem through_concat (r : Record) : s.through u (rs++[r])=(s.through u rs).pass u r := by
  simp [through]

theorem through_eq : s.through u rs={ s.through v rs with
      enduseful := (s.through u rs).enduseful } := by
  induction rs using List.reverseRecOn with
  | nil => rfl
  | append_singleton rs r ih =>
    rw [through_concat,through_concat,ih]
    rfl

theorem through_offset : (s.through u rs).offset=s.offset+total recLen rs := by
  induction rs using List.reverseRecOn with
  | nil => rfl
  | append_singleton rs r ih =>
    rw [through_concat,total_append]
    simp only [pass,ih,total_cons,total_nil]
    omega

theorem through_enduseful_le : (s.through u rs).enduseful=s.enduseful ∨
      (s.through u rs).enduseful≤(s.through u rs).offset := by
  induction rs using List.reverseRecOn with
  | nil => exact .inl rfl
  | append_singleton rs r ih =>
    simp only [through_concat,pass]
    split
    · exact .inr (Nat.le_refl _)
    · exact ih.imp_right (fun h => by omega)

end Search

theorem SearchSlot.see_freespace {ss : SearchSlot} (h : ss.needed=0) (o : ℕ) (r : Record) :
    (ss.see o r).needed=0 ∧ (ss.see o r).freespace=ss.freespace := by
  simp only [see,h,Nat.zero_le,if_true]
  split_ifs <;> simp [h]

theorem Search.through_freespace {u : Record → Bool} (h : s.slot.needed=0) (rs : List Record) :
    (s.through u rs).slot.needed=0 ∧ (s.through u rs).slot.freespace=s.slot.freespace := by
  induction rs using List.reverseRecOn with
  | nil => exact ⟨h,rfl⟩
  | append_singleton rs r ih =>
    rw [through_concat]
    exact (SearchSlot.see_freespace ih.1 _ _).imp_right (fun he => he.trans ih.2)

section Agreement

variable {foundp b : Bool} {rs : List Record} {s : Search}

theorem SameSearch.ended (h : SameSearch cfg m name foundp s)
    (hp : Crosses cfg m name s.entryoffsetinblock rs b) :
    (s.through Record.hasLength rs).ended m foundp b=
      ((if s.entryoffsetinblock < cfg.blocksize then s.restart cfg else s).through
        Record.live rs).ended m false b := by
  obtain ⟨r,⟨n,h⟩,⟨n',h'⟩⟩ := h
  rw [hp.searchDirblock foundp n rfl] at h
  rw [hp.inlinedLoop n' rfl] at h'
  simp only [Option.ite_none_right_eq_some,Option.some.injEq] at h h'
  exact h.2.trans h'.2.symm

theorem Search.ended_enduseful (s : Search) : (s.ended m foundp b).1.enduseful=s.enduseful := by
  cases b <;> rfl

theorem Search.ended_freespace {u : Record → Bool} (h : s.slot.needed=0) :
    ((s.through u rs).ended m foundp b).1.slot.freespace=s.slot.freespace := by
  have ht := through_freespace (u := u) h rs
  cases b with
  | true => exact (SearchSlot.see_freespace ht.1 _ _).2.trans ht.2
  | false => exact ht.2

theorem Search.ended_found (s : Search) : (s.ended m foundp b).2=(b || foundp) := by
  cases b <;> rfl

theorem Crosses.hasLength {o : ℕ} (h : Crosses cfg m name o rs b) : ∀ r∈rs,r.hasLength=true := by
  induction h with
  | leave | hit => simp
  | pass o rs b h hm hh ht ih =>
    have hp := Record.recLen_pos hm
    simpa [Record.hasLength,Nat.ne_of_gt hp] using ih

theorem Search.enduseful_eq (h : ∀ r∈rs.getLast?,r.live=true) (hl : ∀ r∈rs,r.hasLength=true) :
    s.through Record.hasLength rs=s.through Record.live rs := by
  induction rs using List.reverseRecOn with
  | nil => rfl
  | append_singleton rs r ih =>
    have h1 := h r (by simp)
    have h2 := hl r (by simp)
    rw [through_concat,through_concat,through_eq s rs (u := Record.hasLength) (v := Record.live)]
    simp [pass,h1,h2]

/-- `ext2_search_dirblock` leaves `enduseful` behind a free record. -/
theorem live_of_enduseful (hs : s.enduseful=s.offset+total recLen rs+1)
    (hl : ∀ r∈rs,r.hasLength=true)
    (h : (s.through Record.hasLength rs).enduseful=(s.through Record.live rs).enduseful) :
    ∀ r∈rs.getLast?,r.live=true := by
  induction rs using List.reverseRecOn with
  | nil => simp
  | append_singleton rs r ih =>
    have h2 := hl r (by simp)
    have hp : 0 < r.recLen := Nat.pos_of_ne_zero (of_decide_eq_true h2)
    have hle := Search.through_enduseful_le (u := Record.live) s rs
    simp only [Search.through_concat,Search.pass,h2,if_true,Search.through_offset] at h hle
    rw [total_append,total_cons,total_nil] at hs
    have hr : r.live=true := by
      by_contra hr
      simp only [hr,if_false] at h
      omega
    simpa using hr

end Agreement

theorem Search.restart_eq (h : s.entryoffsetinblock=0 → s.slot.restart=s.slot) :
    (if s.entryoffsetinblock < cfg.blocksize then s.restart cfg else s)=s := by
  split
  · rename_i hlt
    rcases Nat.eq_zero_or_pos s.entryoffsetinblock with h0 | hpos
    · simp [restart,h h0]
    · exact restart_of_pos hpos hlt
  · rfl

theorem Alike.sameSearch (h : Alike cfg m name foundp s.entryoffsetinblock)
    (hr : s.entryoffsetinblock=0 → s.slot.restart=s.slot) :
    SameSearch cfg m name foundp s := by
  obtain ⟨rs,b,hp,hlive,hfound⟩ := h
  have hi := hp.inlinedLoop (rs.length+1) (s := s) rfl
  rw [Search.restart_eq hr,← Search.enduseful_eq hlive hp.hasLength] at hi
  refine ⟨_,⟨rs.length+1,(hp.searchDirblock foundp _ rfl).trans (if_pos (Nat.lt_succ_self _))⟩,
    rs.length+1,?_⟩
  rw [hi,if_pos (Nat.lt_succ_self _)]
  cases b with
  | true => rfl
  | false => simp [Search.ended,Bool.eq_false_iff.mpr (fun hf => by simpa using hfound hf)]

/-- If `fresh`, for the states whose search for space is started afresh, otherwise for all. -/
theorem searchDirblock_same_iff (cfg : Config) (m : Bytes) (name : List UInt8) (foundp : Bool)
    (o : ℕ) (fresh : Bool) :
    (∀ s,s.entryoffsetinblock=o → (fresh=true → s.slot.restart=s.slot) →
      SameSearch cfg m name foundp s) ↔
    Alike cfg m name foundp o ∧ (o=0 → fresh=true) := by
  constructor
  · intro h
    have hnew (k : ℕ) : SameSearch cfg m name foundp ⟨0,o,0,k,⟨.none,none,0,0,0⟩⟩ :=
      h _ rfl (fun _ => rfl)
    obtain ⟨_,⟨n,hn⟩,-⟩ := hnew 0
    obtain ⟨rs,b,hp⟩ := crosses_of_searchDirblock hn
    refine ⟨⟨rs,b,hp,?_,?_⟩,fun h0 => ?_⟩
    · -- `enduseful` starts where no record ends
      have hu := congrArg (fun r => r.1.enduseful) ((hnew (total recLen rs+1)).ended hp)
      rw [Search.restart_eq (fun _ => rfl)] at hu
      simp only [Search.ended_enduseful] at hu
      exact live_of_enduseful (by simp) hp.hasLength hu
    · intro hf
      have hb := congrArg Prod.snd ((hnew 0).ended hp)
      simpa [Search.ended_found,hf] using hb.symm
    · by_contra hfr
      have hold := h ⟨0,o,0,0,⟨.none,none,0,1,0⟩⟩ rfl (fun hf => absurd hf hfr)
      have hs := congrArg (fun r => r.1.slot.freespace) (hold.ended hp)
      have hlt : o < cfg.blocksize := by
        have := cfg.blocksize_bounds
        omega
      simp only [hlt,if_true] at hs
      rw [Search.ended_freespace rfl,Search.ended_freespace (by simp [Search.restart,h0,
        SearchSlot.restart])] at hs
      simp [Search.restart,h0,SearchSlot.restart] at hs
  · rintro ⟨h,hfr⟩ s rfl hr
    exact h.sameSearch (fun h0 => hr (hfr h0))

def plainConfig : Config := { smallConfig with rdonly := true }

/-- In a block of zeros the call does not return. One free record is all useful to it, and not to
the search loop. -/
theorem searchDirblock_free :
    (¬∃ n r,searchDirblock plainConfig (fun _ => 0) [65] false n 0
      ⟨0,0,0,0,⟨.none,none,0,0,12⟩⟩=some r) ∧
    (searchDirblock plainConfig (fun i => if i=5 then 4 else 0) [65] false 2 0
      ⟨0,0,0,0,⟨.none,none,0,0,12⟩⟩).map (fun r => r.1.enduseful)=some 1024 ∧
    (inlinedLoop plainConfig (fun i => if i=5 then 4 else 0) [65] 2
      ⟨0,0,0,0,⟨.none,none,0,0,12⟩⟩).map (fun r => r.1.enduseful)=some 0 := by
  refine ⟨?_,by decide +kernel,by decide +kernel⟩
  rintro ⟨n,r,h⟩
  rw [searchDirblock_mangled (by decide) (by decide)] at h
  cases h

end Ext2fsX.Directory
